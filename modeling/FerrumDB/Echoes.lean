import FerrumDB.Calls
import FerrumDB.SsTable.Rotten
import Mathlib.Data.List.Sort

/-!
# The same run over sound tables

A directory whose tables have rotted is compared with the directory as it was (`Rot.Alike`). `Echoes` says that
a program does the same from both: it returns the same, or it stops alike, with the same receiver after the same
number of I/O calls, whatever calls fail. The one exception is a rotten block: where the program stops with the
decode error of its check, the run from the sound directory stops the same way if that read fails (`Echo`). So a
rotten block is no worse than a failing read, and what is known of runs with failing reads carries over
(`Echoes.does`).
-/

namespace FerrumDB

open CrashLogic

variable {σ τ α β : Type} {lossy : Prop} {s : σ} {dg d : Disk}

/-! ## Two runs -/

/-- In every environment that is `env` from the `n`-th call to the `k`-th, the program runs to the result `r`. -/
def RunsAs (c : Prog σ α) (s : σ) (d : Disk) (env : Env) (n k : ℕ) (r : Env → EStateM.Result Stop (Mem σ) α) : Prop :=
  ∀ env' : Env, (∀ i, n ≤ i → i < k → env' i = env i) → c ⟨s, d, env', n⟩ = r env'

def readFailure : String := "Input/output error (os error 5)"

/-- The environment in which the `k`-th call fails as well. -/
def Env.unreadableAt (env : Env) (k : ℕ) : Env := fun i => if i = k then fun _ => some (.error readFailure 0) else env i

/-- How a run from the sound directory stops when the other one has stopped before the `k`-th call, and in which
environment. Only a lossy run may stop differently. -/
inductive Echo (lossy : Prop) (env : Env) (n k : ℕ) : Stop → Stop → Env → Prop
  | same (e : Stop) : Echo lossy env n k e e env
  | read (msg : String) (may : lossy) (called : n < k) :
    Echo lossy env n k (.err (.decodeError msg)) (.err (.ioError readFailure)) (env.unreadableAt (k - 1))

/-- The program does from `dg` what it does from `d`, up to unreadable blocks if it is lossy. -/
def Echoes (lossy : Prop) (c : Prog σ α) (s : σ) (dg d : Disk) (Q : α → σ → Disk → Disk → Prop)
    (E : σ → Disk → Disk → Prop) : Prop :=
  ∀ env n, wp c ⟨s, d, env, n⟩
    (fun r y => y.env = env ∧ n ≤ y.clock ∧ ∃ dg', Q r y.self dg' y.disk ∧
      RunsAs c s dg env n y.clock fun env' => .ok r ⟨y.self, dg', env', y.clock⟩)
    fun e y => y.env = env ∧ n ≤ y.clock ∧ ∃ dg' e' env', E y.self dg' y.disk ∧ Echo lossy env n y.clock e e' env' ∧
      RunsAs c s dg env' n y.clock fun env' => .error e' ⟨y.self, dg', env', y.clock⟩

variable {Q : α → σ → Disk → Disk → Prop} {E : σ → Disk → Disk → Prop}

/-! ## Program constructors -/

theorem Echoes.mono {c : Prog σ α} {Q' : α → σ → Disk → Disk → Prop} {E' : σ → Disk → Disk → Prop}
    (h : Echoes lossy c s dg d Q E) (hQ : ∀ r s' dg' d', Q r s' dg' d' → Q' r s' dg' d')
    (hE : ∀ s' dg' d', E s' dg' d' → E' s' dg' d') : Echoes lossy c s dg d Q' E' := by
  intro env n
  refine (h env n).mono ?_ ?_
  · rintro r y ⟨henv, hle, dg', hq, hrun⟩
    exact ⟨henv, hle, dg', hQ r _ _ _ hq, hrun⟩
  · rintro e y ⟨henv, hle, dg', e', env', he, hecho, hrun⟩
    exact ⟨henv, hle, dg', e', env', hE _ _ _ he, hecho, hrun⟩

theorem Echoes.pure {r : α} (h : Q r s dg d) : Echoes lossy (pure r) s dg d Q E := fun _ _ =>
  ⟨rfl, Nat.le_refl _, dg, h, fun _ _ => rfl⟩

theorem Echoes.throw {e : Stop} (h : E s dg d) : Echoes lossy (throw e : Prog σ α) s dg d Q E := fun _ _ =>
  ⟨rfl, Nat.le_refl _, dg, e, _, h, .same e, fun _ _ => rfl⟩

theorem Echoes.bind {c : Prog σ β} {f : β → Prog σ α}
    (h : Echoes lossy c s dg d (fun r s' dg' d' => Echoes lossy (f r) s' dg' d' Q E) E) :
    Echoes lossy (c >>= f) s dg d Q E := by
  intro env n
  refine (wp_bind c f _ _ _).2 ((h env n).mono ?_ ?_)
  · rintro r ⟨s', d', env₁, k⟩ ⟨henv, hle, dg', hf, hrun⟩
    obtain rfl : env = env₁ := henv.symm
    refine (hf env k).mono ?_ ?_
    · rintro r' y ⟨henv, hle', dg'', hq, hrun'⟩
      refine ⟨henv, Nat.le_trans hle hle', dg'', hq, fun env' hagree => ?_⟩
      rw [bind_ok (hrun env' fun i hn hk => hagree i hn (Nat.lt_of_lt_of_le hk hle'))]
      exact hrun' env' fun i hn hk => hagree i (Nat.le_trans hle hn) hk
    · rintro e y ⟨henv, hle', dg'', e', env'', he, hecho, hrun'⟩
      refine ⟨henv, Nat.le_trans hle hle', dg'', e', env'', he, ?_, fun env' hagree => ?_⟩
      · cases hecho with
        | same => exact .same e
        | read msg may called => exact .read msg may (Nat.lt_of_le_of_lt hle called)
      · -- the calls of `c` are before the one that may fail
        have hbefore : ∀ i, n ≤ i → i < k → env' i = env i := by
          intro i hn hk
          rw [hagree i hn (Nat.lt_of_lt_of_le hk hle')]
          cases hecho with
          | same => rfl
          | read msg may called => exact if_neg (by have : k < y.clock := called; omega)
        rw [bind_ok (hrun env' hbefore)]
        exact hrun' env' fun i hn hk => hagree i (Nat.le_trans hle hn) hk
  · rintro e y ⟨henv, hle, dg', e', env', he, hecho, hrun⟩
    exact ⟨henv, hle, dg', e', env', he, hecho, fun env'' hagree => bind_error (hrun env'' hagree)⟩

theorem Echoes.seq {c : Prog σ β} {f : β → Prog σ α} {R : β → σ → Disk → Disk → Prop} (h : Echoes lossy c s dg d R E)
    (hf : ∀ r s' dg' d', R r s' dg' d' → Echoes lossy (f r) s' dg' d' Q E) : Echoes lossy (c >>= f) s dg d Q E :=
  (h.mono hf fun _ _ _ he => he).bind

theorem Echoes.withSelf {f : σ → Prog σ α} (h : Echoes lossy (f s) s dg d Q E) :
    Echoes lossy (self >>= f) s dg d Q E := h

theorem Echoes.setSelf {b : σ} {Q : PUnit → σ → Disk → Disk → Prop} (h : Q ⟨⟩ b dg d) :
    Echoes lossy (setSelf b) s dg d Q E := fun _ _ => ⟨rfl, Nat.le_refl _, dg, h, fun _ _ => rfl⟩

theorem Echoes.modifySelf {f : σ → σ} {Q : PUnit → σ → Disk → Disk → Prop} (h : Q ⟨⟩ (f s) dg d) :
    Echoes lossy (modifySelf f) s dg d Q E := fun _ _ => ⟨rfl, Nat.le_refl _, dg, h, fun _ _ => rfl⟩

theorem Echoes.ofStop {x : Except Stop α} (hok : ∀ r, x = .ok r → Q r s dg d) (herr : E s dg d) :
    Echoes lossy (ofStop x) s dg d Q E := by
  cases x with
  | ok r => exact .pure (hok r rfl)
  | error e => exact .throw herr

theorem Echoes.ofExcept {x : Except AppError α} (hok : ∀ r, x = .ok r → Q r s dg d) (herr : E s dg d) :
    Echoes lossy (ofExcept x) s dg d Q E := by
  cases x with
  | ok r => exact .pure (hok r rfl)
  | error e => exact .throw herr

theorem Echoes.onField {get : σ → τ} {put : τ → σ → σ} {c : Prog τ α}
    (h : Echoes lossy c (get s) dg d (fun r t dg' d' => Q r (put t s) dg' d') fun t dg' d' => E (put t s) dg' d') :
    Echoes lossy (onField get put c) s dg d Q E := by
  intro env n
  refine (wp_zoom _ _ _ _ _ _).2 ((h env n).mono ?_ ?_)
  · rintro r y ⟨henv, hle, dg', hq, hrun⟩
    refine ⟨henv, hle, dg', hq, fun env' hagree => ?_⟩
    unfold FerrumDB.onField zoom
    dsimp only
    rw [hrun env' hagree]
  · rintro e y ⟨henv, hle, dg', e', env', he, hecho, hrun⟩
    refine ⟨henv, hle, dg', e', env', he, hecho, fun env'' hagree => ?_⟩
    unfold FerrumDB.onField zoom
    dsimp only
    rw [hrun env'' hagree]

/-- A result, with an error caught. -/
def caught (ok : β → α) (no : α) : EStateM.Result Stop (Mem σ) β → EStateM.Result Stop (Mem σ) α
  | .ok r x => .ok (ok r) x
  | .error (.err _) x => .ok no x
  | .error .panic x => .error .panic x
  | .error .crash x => .error .crash x

/-- A program that goes on when another one fails; the other one is exact. -/
theorem Echoes.catches {c : Prog σ β} {c' : Prog σ α} (ok : β → α) (no : α) (hc : ∀ x, c' x = caught ok no (c x))
    (h : Echoes False c s dg d (fun r s' dg' d' => Q (ok r) s' dg' d') fun s' dg' d' =>
      Q no s' dg' d' ∧ E s' dg' d') : Echoes lossy c' s dg d Q E := by
  intro env n
  have h := h env n
  unfold wp at h ⊢
  rw [hc]
  cases hrun : c ⟨s, d, env, n⟩ with
  | ok r y =>
    rw [hrun] at h
    obtain ⟨henv, hle, dg', hq, hruns⟩ := h
    exact ⟨henv, hle, dg', hq, fun env' hagree => by rw [hc, hruns env' hagree]; rfl⟩
  | error e y =>
    rw [hrun] at h
    obtain ⟨henv, hle, dg', e', env', ⟨hno, he⟩, hecho, hruns⟩ := h
    cases hecho with
    | read msg may => exact may.elim
    | same =>
      cases e with
      | err e => exact ⟨henv, hle, dg', hno, fun env' hagree => by rw [hc, hruns env' hagree]; rfl⟩
      | panic => exact ⟨henv, hle, dg', .panic, env, he, .same _, fun env' hagree => by rw [hc, hruns env' hagree]; rfl⟩
      | crash => exact ⟨henv, hle, dg', .crash, env, he, .same _, fun env' hagree => by rw [hc, hruns env' hagree]; rfl⟩

/-- A call that answers alike from both directories. -/
theorem Echoes.ioCall {c : IoCall} {torn : TornEffect} {act : Disk → Except String α × Disk}
    (hsame : (act dg).1 = (act d).1) (hQ : ∀ r, (act d).1 = .ok r → Q r s (act dg).2 (act d).2)
    (herr : E s (act dg).2 (act d).2)
    (htorn : ∀ f, E s (torn f dg) (torn f d)) : Echoes lossy (ioCall c torn act) s dg d Q E := by
  intro env n
  have hagrees : ∀ env' : Env, (∀ i, n ≤ i → i < n + 1 → env' i = env i) → env' n c = env n c :=
    fun env' hagree => congrFun (hagree n (Nat.le_refl n) (Nat.lt_succ_self n)) c
  unfold wp FerrumDB.ioCall RunsAs
  dsimp only
  cases hcall : env n c with
  | none =>
    dsimp only
    cases hact : act d with
    | mk r d' =>
      cases hact' : act dg with
      | mk r' dg' =>
        rw [hact, hact'] at hsame hQ herr
        cases hsame
        cases r with
        | ok r =>
          refine ⟨rfl, Nat.le_succ n, dg', hQ r rfl, fun env' hagree => ?_⟩
          rw [hagrees env' hagree, hcall]
        | error msg =>
          refine ⟨rfl, Nat.le_succ n, dg', _, env, herr, .same _, fun env' hagree => ?_⟩
          rw [hagrees env' hagree, hcall]
  | some f =>
    cases f with
    | error msg k =>
      refine ⟨rfl, Nat.le_succ n, _, _, env, htorn (.error msg k), .same _, fun env' hagree => ?_⟩
      rw [hagrees env' hagree, hcall]
    | crash k =>
      refine ⟨rfl, Nat.le_succ n, _, _, env, htorn (.crash k), .same _, fun env' hagree => ?_⟩
      rw [hagrees env' hagree, hcall]

/-! ## What carries over -/

/-- **What holds of the run over sound tables, in every environment, holds of the other one**: it reaches the same
receiver, and a stop is the same but for unreadable blocks. -/
theorem Echoes.does {c : Prog σ α} (h : Echoes lossy c s dg d Q E) {Q' : Env → α → σ → Disk → Prop}
    {E' : Env → Stop → σ → Disk → Prop} (hdoes : ∀ env, Does env c s dg (Q' env) (E' env)) (env : Env) :
    Does env c s d (fun r s' d' => ∃ dg', Q r s' dg' d' ∧ Q' env r s' dg')
      fun e s' d' => ∃ dg' e' env' n k, E s' dg' d' ∧ Echo lossy env n k e e' env' ∧ E' env' e' s' dg' := by
  intro n
  refine (h env n).mono ?_ ?_
  · rintro r y ⟨henv, hle, dg', hq, hrun⟩
    exact ⟨henv, dg', hq, (hdoes env).of_ok (hrun env fun _ _ _ => rfl)⟩
  · rintro e y ⟨henv, hle, dg', e', env', he, hecho, hrun⟩
    exact ⟨henv, dg', e', env', n, y.clock, he, hecho, (hdoes env').of_error (hrun env' fun _ _ _ => rfl)⟩

/-! ## Directories alike -/

/-- The files in which blocks may have rotted, and the blocks of them that are read. -/
structure Rot where
  names : FileName → Prop
  blocks : FileName → IndexEntry → Prop

/-- `f'` is what is left of the file `f`, and its index has the blocks that are read. -/
structure Rot.Leaves (w : Rot) (name : FileName) (f f' : File) : Prop where
  may : w.names name
  rots : f.Rots f'
  index : ∀ e, w.blocks name e → ∃ t, SsTable.parse name f = .ok t ∧ e ∈ t.index

/-- The directories are alike but for rotten tables. -/
structure Rot.Alike (w : Rot) (dg d : Disk) : Prop where
  locked : d.locked = dg.locked
  files : ∀ name, d.files[name]? = dg.files[name]? ∨
    ∃ f f', dg.files[name]? = some f ∧ d.files[name]? = some f' ∧ w.Leaves name f f'

section Alike

variable {w : Rot} {name : FileName}

theorem Rot.Alike.file_eq (h : w.Alike dg d) (hname : ¬ w.names name) : dg.files[name]? = d.files[name]? := by
  rcases h.files name with heq | ⟨f, f', -, -, hleaves⟩
  · exact heq.symm
  · exact absurd hleaves.may hname

theorem Rot.Alike.contains (h : w.Alike dg d) (name : FileName) : dg.files.contains name = d.files.contains name := by
  rw [Std.ExtTreeMap.contains_eq_isSome_getElem?, Std.ExtTreeMap.contains_eq_isSome_getElem?]
  rcases h.files name with heq | ⟨f, f', hf, hf', -⟩
  · rw [heq]
  · rw [hf, hf']
    rfl

theorem Rot.Alike.keys (h : w.Alike dg d) : dg.files.keys = d.files.keys := by
  have _ : Std.Irrefl fun a b : FileName => compare a b = .lt := ⟨fun a => by simp⟩
  have _ : Std.Antisymm fun a b : FileName => compare a b = .lt := by
    refine ⟨fun a b h h' => ?_⟩
    rw [Std.OrientedOrd.eq_swap, h'] at h
    cases h
  refine dg.files.ordered_keys.eq_of_mem_iff d.files.ordered_keys fun name => ?_
  rw [Std.ExtTreeMap.mem_keys, Std.ExtTreeMap.mem_keys, ← Std.ExtTreeMap.contains_iff_mem,
    ← Std.ExtTreeMap.contains_iff_mem, h.contains]

theorem Rot.Alike.put (h : w.Alike dg d) (name : FileName) (f : File) : w.Alike (dg.put name f) (d.put name f) where
  locked := h.locked
  files name' := by
    rw [Disk.files_put, Disk.files_put]
    split_ifs
    · exact .inl rfl
    · exact h.files name'

theorem Rot.Alike.erase (h : w.Alike dg d) (name : FileName) :
    w.Alike { dg with files := dg.files.erase name } { d with files := d.files.erase name } where
  locked := h.locked
  files name' := by
    dsimp only
    rw [Std.ExtTreeMap.getElem?_erase, Std.ExtTreeMap.getElem?_erase]
    split_ifs
    · exact .inl rfl
    · exact h.files name'

theorem Rot.Alike.lock (h : w.Alike dg d) (b : Bool) : w.Alike { dg with locked := b } { d with locked := b } :=
  ⟨rfl, h.files⟩

theorem Rot.Alike.append (h : w.Alike dg d) (hname : ¬ w.names name) (bs : Bytes) :
    w.Alike (dg.append name bs) (d.append name bs) := by
  unfold Disk.append
  rw [h.file_eq hname]
  cases d.files[name]? with
  | none => exact h
  | some f => exact h.put name _

theorem Rot.Alike.torn (h : w.Alike dg d) (hname : ¬ w.names name) (bs : Bytes) (f : Fault) :
    w.Alike (tornWrite name bs f dg) (tornWrite name bs f d) := by
  cases f with
  | error msg n => exact h.append hname _
  | crash n => exact h.append hname _

end Alike

/-! ## Programs that repeat -/

section Repeats

variable {w : Rot} {I : σ → Prop} {R : α → Prop} {name : FileName}

/-- From directories alike the program does the same and leaves directories alike; it keeps `I`, and what it
returns satisfies `R`. -/
def Rot.Repeats (w : Rot) (lossy : Prop) (I : σ → Prop) (c : Prog σ α) (R : α → Prop := fun _ => True) : Prop :=
  ∀ s dg d, I s → w.Alike dg d → Echoes lossy c s dg d (fun r s' dg' d' => I s' ∧ w.Alike dg' d' ∧ R r)
    fun s' dg' d' => I s' ∧ w.Alike dg' d'

theorem Rot.Repeats.pure {r : α} (hr : R r) : w.Repeats lossy I (pure r) R := fun _ _ _ hs hd => .pure ⟨hs, hd, hr⟩

theorem Rot.Repeats.throw {e : Stop} : w.Repeats lossy I (throw e : Prog σ α) R := fun _ _ _ hs hd => .throw ⟨hs, hd⟩

theorem Rot.Repeats.seq {R' : β → Prop} {c : Prog σ β} {f : β → Prog σ α} (hc : w.Repeats lossy I c R')
    (hf : ∀ r, R' r → w.Repeats lossy I (f r) R) : w.Repeats lossy I (c >>= f) R := by
  intro s dg d hs hd
  refine (hc s dg d hs hd).seq ?_
  rintro r s' dg' d' ⟨hs', hd', hr⟩
  exact hf r hr s' dg' d' hs' hd'

theorem Rot.Repeats.bind {c : Prog σ β} {f : β → Prog σ α} (hc : w.Repeats lossy I c)
    (hf : ∀ r, w.Repeats lossy I (f r) R) : w.Repeats lossy I (c >>= f) R := hc.seq fun r _ => hf r

theorem Rot.Repeats.ofStop (x : Except Stop α) : w.Repeats lossy I (ofStop x) := fun _ _ _ hs hd =>
  .ofStop (fun _ _ => ⟨hs, hd, trivial⟩) ⟨hs, hd⟩

theorem Rot.Repeats.ofExcept (x : Except AppError α) : w.Repeats lossy I (ofExcept x) := fun _ _ _ hs hd =>
  .ofExcept (fun _ _ => ⟨hs, hd, trivial⟩) ⟨hs, hd⟩

theorem Rot.Repeats.forM {f : β → Prog σ PUnit} (l : List β) (h : ∀ x ∈ l, w.Repeats lossy I (f x)) :
    w.Repeats lossy I (forM l f) := by
  induction l with
  | nil => exact .pure trivial
  | cons x l ih =>
    rw [List.forM_cons]
    exact (h x (List.mem_cons_self ..)).bind fun _ => ih fun y hy => h y (List.mem_cons_of_mem _ hy)

/-! ## The calls -/

theorem Rot.Repeats.ioCall {c : IoCall} {torn : TornEffect} {act : Disk → Except String α × Disk}
    (hact : ∀ dg d, w.Alike dg d → (act dg).1 = (act d).1 ∧ w.Alike (act dg).2 (act d).2)
    (htorn : ∀ f dg d, w.Alike dg d → w.Alike (torn f dg) (torn f d)) : w.Repeats lossy I (ioCall c torn act) := by
  intro s dg d hs hd
  obtain ⟨hsame, hd'⟩ := hact dg d hd
  exact .ioCall hsame (fun _ _ => ⟨hs, hd', trivial⟩) ⟨hs, hd'⟩ fun f => ⟨hs, htorn f dg d hd⟩

theorem Rot.Repeats.ioCall_noEffect {c : IoCall} {act : Disk → Except String α × Disk}
    (hact : ∀ dg d, w.Alike dg d → (act dg).1 = (act d).1 ∧ w.Alike (act dg).2 (act d).2) :
    w.Repeats lossy I (FerrumDB.ioCall c noEffect act) := .ioCall hact fun _ _ _ hd => hd

theorem repeats_createDirAll : w.Repeats lossy I createDirAll := .ioCall_noEffect fun _ _ hd => ⟨rfl, hd⟩

/-- The file is there, empty if it was missing. -/
theorem alike_created (h : w.Alike dg d) (name : FileName) :
    w.Alike (if dg.files.contains name then dg else dg.put name File.empty)
      (if d.files.contains name then d else d.put name File.empty) := by
  rw [h.contains]
  split_ifs
  · exact h
  · exact h.put name _

theorem repeats_openLock : w.Repeats lossy I openLock := .ioCall_noEffect fun _ _ hd => ⟨rfl, alike_created hd "LOCK"⟩

theorem repeats_readDir : w.Repeats lossy I readDir :=
  .ioCall_noEffect fun _ _ hd => ⟨congrArg Except.ok hd.keys, hd⟩

theorem repeats_openRead (name : FileName) : w.Repeats lossy I (openRead name) := by
  refine .ioCall_noEffect fun _ _ hd => ⟨?_, hd⟩
  dsimp only
  rw [hd.contains]

theorem repeats_openAppend (name : FileName) : w.Repeats lossy I (openAppend name) :=
  .ioCall_noEffect fun _ _ hd => ⟨rfl, alike_created hd name⟩

theorem repeats_openTruncate (name : FileName) : w.Repeats lossy I (openTruncate name) :=
  .ioCall_noEffect fun _ _ hd => ⟨rfl, hd.put name _⟩

theorem repeats_openWrite (name : FileName) : w.Repeats lossy I (openWrite name) := by
  refine .ioCall_noEffect fun _ _ hd => ⟨?_, hd⟩
  dsimp only
  rw [hd.contains]

theorem repeats_readToEnd (hname : ¬ w.names name) : w.Repeats lossy I (readToEnd name) := by
  refine .ioCall_noEffect fun dg d hd => ?_
  rw [hd.file_eq hname]
  cases d.files[name]? <;> exact ⟨rfl, hd⟩

theorem repeats_writeAll (hname : ¬ w.names name) (bs : Bytes) : w.Repeats lossy I (writeAll name bs) := by
  refine .ioCall (fun dg d hd => ?_) fun f _ _ hd => hd.torn hname bs f
  rw [hd.file_eq hname]
  cases d.files[name]? with
  | none => exact ⟨rfl, hd⟩
  | some f =>
    dsimp only
    split_ifs <;> exact ⟨rfl, hd.append hname bs⟩

theorem repeats_syncAll (hname : ¬ w.names name) : w.Repeats lossy I (syncAll name) := by
  refine .ioCall_noEffect fun dg d hd => ?_
  rw [hd.file_eq hname]
  cases d.files[name]? with
  | none => exact ⟨rfl, hd⟩
  | some f => exact ⟨rfl, hd.put name _⟩

theorem repeats_setLen (hname : ¬ w.names name) (n : ℕ) : w.Repeats lossy I (setLen name n) := by
  refine .ioCall_noEffect fun dg d hd => ?_
  rw [hd.file_eq hname]
  cases d.files[name]? with
  | none => exact ⟨rfl, hd⟩
  | some f => exact ⟨rfl, hd.put name _⟩

theorem repeats_removeFile (name : FileName) : w.Repeats lossy I (removeFile name) := by
  refine .ioCall_noEffect fun dg d hd => ?_
  rw [hd.contains]
  split_ifs
  · exact ⟨rfl, hd.erase name⟩
  · exact ⟨rfl, hd⟩

/-- A program that goes on when another one fails. -/
theorem Rot.Repeats.catches {c : Prog σ β} {c' : Prog σ α} (ok : β → α) (no : α)
    (hc : ∀ x, c' x = caught ok no (c x)) (h : w.Repeats False I c) : w.Repeats lossy I c' := by
  intro s dg d hs hd
  refine Echoes.catches ok no hc ((h s dg d hs hd).mono ?_ ?_)
  · rintro r s' dg' d' ⟨hs', hd', -⟩
    exact ⟨hs', hd', trivial⟩
  · rintro s' dg' d' ⟨hs', hd'⟩
    exact ⟨⟨hs', hd', trivial⟩, hs', hd'⟩

theorem Rot.Repeats.ignoreErr {c : Prog σ α} (h : w.Repeats False I c) : w.Repeats lossy I (ignoreErr c) := by
  refine .catches (fun _ => ()) () (fun x => ?_) h
  unfold FerrumDB.ignoreErr
  cases c x with
  | ok r y => rfl
  | error e y => cases e <;> rfl

/-! ## Blocks -/

/-- What a read of a file of the directory gives. -/
def Disk.readAt (d : Disk) (name : FileName) (offset len : ℕ) : Except String Bytes :=
  match d.files[name]? with
  | some f => f.readAt offset len
  | none => .error noSuchFile

theorem readExactAt_eq (name : FileName) (offset len : ℕ) :
    (readExactAt name offset len : Prog σ Bytes) =
      ioCall ⟨.read, name⟩ noEffect fun d => (d.readAt name offset len, d) := by
  unfold readExactAt Disk.readAt File.readAt
  congr 1
  funext d
  cases d.files[name]? with
  | none => rfl
  | some f =>
    dsimp only
    split_ifs <;> rfl

theorem ioCall_fails {c : IoCall} {act : Disk → Except String α × Disk} {x : Mem σ} {f : Fault}
    (h : x.env x.clock c = some f) : ioCall c noEffect act x = .error f.stop { x with clock := x.clock + 1 } := by
  unfold ioCall
  rw [h]
  cases f <;> rfl

/-- A block that fails its check reads from the sound directory as a call that fails. -/
theorem echoes_unreadable {c : IoCall} {act : Disk → Except String Bytes × Disk} {e : IndexEntry} {block : Bytes}
    {Q : Bytes → σ → Disk → Disk → Prop} (hact : act d = (.ok block, d)) (hfails : Unreadable e block) (hE : E s dg d) :
    Echoes True (do let block ← ioCall c noEffect act; FerrumDB.ofStop (checkBlock e block)) s dg d Q E := by
  obtain ⟨msg, hcheck⟩ := hfails
  intro env n
  refine (wp_bind _ _ _ _ _).2 ?_
  cases hcall : env n c with
  | none =>
    have hread : FerrumDB.ioCall c noEffect act ⟨s, d, env, n⟩ = .ok block ⟨s, d, env, n + 1⟩ := by
      unfold FerrumDB.ioCall
      dsimp only
      rw [hcall]
      dsimp only
      rw [hact]
    unfold wp
    rw [hread]
    dsimp only
    rw [hcheck]
    refine ⟨rfl, Nat.le_succ n, dg, _, _, hE, .read msg trivial (Nat.lt_succ_self n), fun env' hagree => ?_⟩
    have hfault : env' n c = some (.error readFailure 0) := by
      rw [hagree n (Nat.le_refl n) (Nat.lt_succ_self n)]
      exact congrFun (if_pos rfl) c
    exact bind_error (ioCall_fails (x := ⟨s, dg, env', n⟩) hfault)
  | some f =>
    have hread : FerrumDB.ioCall c noEffect act ⟨s, d, env, n⟩ = .error f.stop ⟨s, d, env, n + 1⟩ := ioCall_fails hcall
    unfold wp
    rw [hread]
    refine ⟨rfl, Nat.le_succ n, dg, _, env, hE, .same _, fun env' hagree => ?_⟩
    have hfault : env' n c = some f := by
      rw [hagree n (Nat.le_refl n) (Nat.lt_succ_self n)]
      exact hcall
    exact bind_error (ioCall_fails (x := ⟨s, dg, env', n⟩) hfault)

/-- **Reading a block.** A rotten one reads as a failing call would. -/
theorem repeats_readBlock {path : FileName} {e : IndexEntry} (he : w.names path → w.blocks path e) :
    w.Repeats True I (readBlockFromDisk path e) := by
  intro s dg d hs hd
  have hread : dg.readAt path e.blockOffset.toNat e.blockLen.toNat =
        d.readAt path e.blockOffset.toNat e.blockLen.toNat →
      Echoes True (readBlockFromDisk path e) s dg d (fun _ s' dg' d' => I s' ∧ w.Alike dg' d' ∧ True)
        fun s' dg' d' => I s' ∧ w.Alike dg' d' := by
    intro hsame
    unfold readBlockFromDisk
    rw [readExactAt_eq]
    refine Echoes.bind (.ioCall hsame (fun block _ => ?_) ⟨hs, hd⟩ fun _ => ⟨hs, hd⟩)
    exact Rot.Repeats.ofStop _ s dg d hs hd
  rcases hd.files path with hsame | ⟨f, f', hf, hf', hleaves⟩
  · apply hread
    unfold Disk.readAt
    rw [hsame]
  · have hdisk : dg.readAt path e.blockOffset.toNat e.blockLen.toNat = f.readAt e.blockOffset.toNat e.blockLen.toNat ∧
        d.readAt path e.blockOffset.toNat e.blockLen.toNat = f'.readAt e.blockOffset.toNat e.blockLen.toNat := by
      unfold Disk.readAt
      rw [hf, hf']
      exact ⟨rfl, rfl⟩
    obtain ⟨t, ht, hmem⟩ := hleaves.index e (he hleaves.may)
    rcases hleaves.rots.readAt_block e with ⟨msg, hold, hnew⟩ | ⟨hold, hnew⟩
    · apply hread
      rw [hdisk.1, hdisk.2, hold, hnew]
    · rcases hleaves.rots.blocks path t ht e hmem with hsame | hfails
      · apply hread
        rw [hdisk.1, hdisk.2, hold, hnew, hsame]
      · unfold readBlockFromDisk
        rw [readExactAt_eq]
        refine echoes_unreadable ?_ hfails ⟨hs, hd⟩
        rw [hdisk.2, hnew]

end Repeats

end FerrumDB
