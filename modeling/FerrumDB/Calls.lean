import FerrumDB.Disk

/-!
# Rules for the I/O calls

`Does env c a d Q E` is the program logic with the clock hidden: from the receiver `a` and the disk
`d`, whatever the number of calls made so far, `c` returns with `Q` or stops with `E`. Every call
has one rule, for every environment: what it does when nothing goes wrong, and what a fault of the
environment leaves (`Env.Faults`). A proof under an environment that spares a call discharges the
second part.
-/

namespace FerrumDB

open CrashLogic

variable {σ τ α β : Type} {env : Env} {a : σ} {d : Disk}

/-- Run from receiver `a` and disk `d`, the program returns with `Q` or stops with `E`. -/
def Does (env : Env) (c : Prog σ α) (a : σ) (d : Disk) (Q : α → σ → Disk → Prop)
    (E : Stop → σ → Disk → Prop) : Prop :=
  ∀ clock, wp c ⟨a, d, env, clock⟩ (fun r s => s.env = env ∧ Q r s.self s.disk)
    (fun e s => s.env = env ∧ E e s.self s.disk)

variable {Q : α → σ → Disk → Prop} {E : Stop → σ → Disk → Prop}

/-- What holds of a run that returned. -/
theorem Does.of_ok {c : Prog σ α} {r : α} {n : ℕ} {x : Mem σ} (h : Does env c a d Q E)
    (hc : c ⟨a, d, env, n⟩ = .ok r x) : Q r x.self x.disk := ((h n).of_ok hc).2

/-- What holds of a run that stopped. -/
theorem Does.of_error {c : Prog σ α} {e : Stop} {n : ℕ} {x : Mem σ} (h : Does env c a d Q E)
    (hc : c ⟨a, d, env, n⟩ = .error e x) : E e x.self x.disk := ((h n).of_error hc).2

/-! ## Program constructors -/

theorem Does.mono {c : Prog σ α} {Q' : α → σ → Disk → Prop} {E' : Stop → σ → Disk → Prop}
    (h : Does env c a d Q E) (hQ : ∀ r a' d', Q r a' d' → Q' r a' d')
    (hE : ∀ e a' d', E e a' d' → E' e a' d') : Does env c a d Q' E' := fun clock =>
  (h clock).mono (fun _ _ hq => ⟨hq.1, hQ _ _ _ hq.2⟩) (fun _ _ he => ⟨he.1, hE _ _ _ he.2⟩)

theorem Does.pure {r : α} (h : Q r a d) : Does env (pure r) a d Q E := fun _ => ⟨rfl, h⟩

theorem Does.throw {e : Stop} (h : E e a d) : Does env (throw e : Prog σ α) a d Q E :=
  fun _ => ⟨rfl, h⟩

theorem Does.bind {c : Prog σ β} {f : β → Prog σ α}
    (h : Does env c a d (fun r a' d' => Does env (f r) a' d' Q E) E) :
    Does env (c >>= f) a d Q E := fun clock =>
  (h clock).seq fun r s hs => by
    obtain ⟨a', d', env', clock'⟩ := s
    obtain ⟨rfl, hf⟩ := hs
    exact hf clock'

/-- Sequencing through an intermediate assertion. -/
theorem Does.seq {c : Prog σ β} {f : β → Prog σ α} {R : β → σ → Disk → Prop}
    (hc : Does env c a d R E) (hf : ∀ r a' d', R r a' d' → Does env (f r) a' d' Q E) :
    Does env (c >>= f) a d Q E :=
  (hc.mono hf fun _ _ _ h => h).bind

theorem Does.and {c : Prog σ α} {Q' : α → σ → Disk → Prop} {E' : Stop → σ → Disk → Prop}
    (h : Does env c a d Q E) (h' : Does env c a d Q' E') :
    Does env c a d (fun r a' d' => Q r a' d' ∧ Q' r a' d') (fun e a' d' => E e a' d' ∧ E' e a' d') :=
  fun clock => ((h clock).and (h' clock)).mono (fun _ _ hq => ⟨hq.1.1, hq.1.2, hq.2.2⟩)
    (fun _ _ he => ⟨he.1.1, he.1.2, he.2.2⟩)

theorem Does.self {Q : σ → σ → Disk → Prop} (h : Q a a d) : Does env self a d Q E :=
  fun _ => ⟨rfl, h⟩

theorem Does.setSelf {b : σ} {Q : PUnit → σ → Disk → Prop} (h : Q ⟨⟩ b d) :
    Does env (setSelf b) a d Q E := fun _ => ⟨rfl, h⟩

theorem Does.modifySelf {f : σ → σ} {Q : PUnit → σ → Disk → Prop} (h : Q ⟨⟩ (f a) d) :
    Does env (modifySelf f) a d Q E := fun _ => ⟨rfl, h⟩

/-- Reading the receiver before going on. -/
theorem Does.withSelf {f : σ → Prog σ α} (h : Does env (f a) a d Q E) :
    Does env (FerrumDB.self >>= f) a d Q E := (Does.self h).bind

theorem Does.ofStop {x : Except Stop α} (hok : ∀ r, x = .ok r → Q r a d)
    (herr : ∀ e, x = .error e → E e a d) : Does env (ofStop x) a d Q E := by
  cases x with
  | ok r => exact .pure (hok r rfl)
  | error e => exact .throw (herr e rfl)

theorem Does.ofExcept {x : Except AppError α} (hok : ∀ r, x = .ok r → Q r a d)
    (herr : ∀ e, x = .error e → E (.err e) a d) : Does env (ofExcept x) a d Q E := by
  cases x with
  | ok r => exact .pure (hok r rfl)
  | error e => exact .throw (herr e rfl)

theorem Does.ignoreErr {c : Prog σ α} {Q : Unit → σ → Disk → Prop}
    (h : Does env c a d (fun _ a' d' => Q () a' d') fun e a' d' =>
      match e with
      | .err _ => Q () a' d'
      | e => E e a' d') :
    Does env (ignoreErr c) a d Q E := by
  intro clock
  have h := h clock
  unfold wp FerrumDB.ignoreErr at *
  cases hc : c ⟨a, d, env, clock⟩ with
  | ok r s => rw [hc] at h; exact h
  | error e s =>
    rw [hc] at h
    cases e with
    | err e => exact h
    | panic => exact h
    | crash => exact h

theorem Does.onField {get : σ → τ} {put : τ → σ → σ} {c : Prog τ α}
    (h : Does env c (get a) d (fun r t d' => Q r (put t a) d') (fun e t d' => E e (put t a) d')) :
    Does env (onField get put c) a d Q E := fun clock => (wp_zoom _ _ _ _ _ _).2 (h clock)

/-- The loop whose steps all preserve one assertion. -/
theorem Does.loop {f : β → Prog σ PUnit} (I : σ → Disk → Prop) (l : List β)
    (step : ∀ x ∈ l, ∀ a d, I a d → Does env (f x) a d (fun _ a' d' => I a' d') E) (h : I a d) :
    Does env (forM l f) a d (fun _ a' d' => I a' d') E := by
  induction l generalizing a d with
  | nil => exact .pure h
  | cons x l ih =>
    rw [List.forM_cons]
    refine (step x (List.mem_cons_self ..) a d h).seq fun _ a' d' h' => ?_
    exact ih (fun y hy => step y (List.mem_cons_of_mem _ hy)) h'

/-! ## Faults -/

/-- What the program sees of a fault. -/
def Fault.stop : Fault → Stop
  | .error msg _ => .err (.ioError msg)
  | .crash _ => .crash

/-- How many bytes of an interrupted write may have reached the file. -/
def Fault.written : Fault → ℕ
  | .error _ n => n
  | .crash n => n

/-- The environment makes some call of the kind `P` stop with `e`. -/
def Env.Faults (env : Env) (P : IoCall → Prop) (e : Stop) : Prop :=
  ∃ n c f, P c ∧ env n c = some f ∧ f.stop = e

/-- The calls on a file. -/
def onPath (name : FileName) (c : IoCall) : Prop := c.path = name

/-- The environment lets every call of the kind `P` succeed. -/
def Env.Spares (env : Env) (P : IoCall → Prop) : Prop := ∀ n c, P c → env n c = none

theorem Env.Spares.not_faults {P : IoCall → Prop} {e : Stop} (h : env.Spares P) :
    ¬ env.Faults P e := by
  rintro ⟨n, c, f, hc, hf, -⟩
  rw [h n c hc] at hf; cases hf

theorem Env.quiet_spares (P : IoCall → Prop) : Env.quiet.Spares P := fun _ _ _ => rfl

theorem Env.Faults.mono {P P' : IoCall → Prop} {e : Stop} (h : env.Faults P e)
    (hP : ∀ c, P c → P' c) : env.Faults P' e := by
  obtain ⟨n, c, f, hc, hf, he⟩ := h
  exact ⟨n, c, f, hP c hc, hf, he⟩

/-- A fault is an error or a crash, never a panic. -/
theorem Env.Faults.cases {P : IoCall → Prop} {e : Stop} (h : env.Faults P e) :
    (∃ msg, e = .err (.ioError msg)) ∨ e = .crash := by
  obtain ⟨n, c, f, -, -, rfl⟩ := h
  cases f with
  | error msg n => exact Or.inl ⟨msg, rfl⟩
  | crash n => exact Or.inr rfl

/-- With no I/O failure, from receiver `a` and disk `d`, the program returns with `Q`. -/
def Returns (c : Prog σ α) (a : σ) (d : Disk) (Q : α → σ → Disk → Prop) : Prop :=
  Does Env.quiet c a d Q fun _ _ _ => False

/-- The run of a program that returns. -/
theorem Returns.run {c : Prog σ α} (h : Returns c a d Q) (n : ℕ) :
    ∃ r x, c ⟨a, d, Env.quiet, n⟩ = .ok r x ∧ Q r x.self x.disk := by
  obtain ⟨r, x, hc, -, hq⟩ := ((h n).mono (fun _ _ hq => hq) fun _ _ he => he.2).returns
  exact ⟨r, x, hc, hq⟩

/-- A program that returns does so with everything known of its returns. -/
theorem Returns.and {c : Prog σ α} {Q' : α → σ → Disk → Prop} (h : Returns c a d Q)
    (h' : Does Env.quiet c a d Q' E) : Returns c a d fun r a' d' => Q r a' d' ∧ Q' r a' d' :=
  (Does.and h h').mono (fun _ _ _ hq => hq) fun _ _ _ he => he.1

/-- A program that returns does not stop. -/
theorem Returns.not_stops {c : Prog σ α} (h : Returns c a d Q)
    (h' : Does Env.quiet c a d (fun _ _ _ => False) E) : False := by
  obtain ⟨_, _, -, -, hfalse⟩ := (h.and h').run 0
  exact hfalse

/-- A program returns one result. -/
theorem Returns.unique {c : Prog σ α} {x y : α} (h : Returns c a d fun r _ _ => r = x)
    (h' : Returns c a d fun r _ _ => r = y) : x = y := by
  obtain ⟨_, _, -, hx, hy⟩ := (h.and h').run 0
  exact hx.symm.trans hy

theorem Env.not_faults_quiet {P : IoCall → Prop} {e : Stop} : ¬ Env.quiet.Faults P e :=
  (Env.quiet_spares P).not_faults

/-- A call: its effect, or what a fault leaves. -/
theorem Does.ioCall {c : IoCall} {torn : TornEffect} {act : Disk → Except String α × Disk}
    (hact : match act d with
      | (.ok r, d') => Q r a d'
      | (.error msg, d') => E (.err (.ioError msg)) a d')
    (hf : ∀ n f, env n c = some f → E f.stop a (torn f d)) :
    Does env (ioCall c torn act) a d Q E := by
  intro clock
  unfold wp FerrumDB.ioCall
  dsimp only
  cases henv : env clock c with
  | none =>
    dsimp only
    cases hr : act d with
    | mk r d' =>
      rw [hr] at hact
      cases r with
      | ok r => exact ⟨rfl, hact⟩
      | error msg => exact ⟨rfl, hact⟩
  | some f =>
    have := hf clock f henv
    cases f with
    | error msg n => exact ⟨rfl, this⟩
    | crash n => exact ⟨rfl, this⟩

/-- A call without a partial effect. -/
theorem Does.ioCall_noEffect {c : IoCall} {act : Disk → Except String α × Disk}
    (hact : match act d with
      | (.ok r, d') => Q r a d'
      | (.error msg, d') => E (.err (.ioError msg)) a d')
    (hf : ∀ e, env.Faults (· = c) e → E e a d) : Does env (FerrumDB.ioCall c noEffect act) a d Q E :=
  .ioCall hact fun n f h => hf _ ⟨n, c, f, rfl, h, rfl⟩

/-! ## The calls -/

variable {name : FileName} {f : File}

theorem does_createDirAll {Q : Unit → σ → Disk → Prop} (hQ : Q () a d)
    (hE : ∀ e, env.Faults (· = ⟨.createDirAll, ""⟩) e → E e a d) : Does env createDirAll a d Q E :=
  .ioCall_noEffect hQ hE

theorem does_readDir {Q : List FileName → σ → Disk → Prop} (hQ : Q d.files.keys a d)
    (hE : ∀ e, env.Faults (· = ⟨.readDir, ""⟩) e → E e a d) : Does env readDir a d Q E :=
  .ioCall_noEffect hQ hE

theorem does_openRead {Q : Unit → σ → Disk → Prop} (h : d.files[name]? = some f) (hQ : Q () a d)
    (hE : ∀ e, env.Faults (· = ⟨.openRead, name⟩) e → E e a d) : Does env (openRead name) a d Q E :=
  .ioCall_noEffect (by
    rw [if_pos (Std.ExtTreeMap.contains_iff_mem.2 (Std.ExtTreeMap.mem_iff_isSome_getElem?.2 (by rw [h]; rfl)))]
    exact hQ) hE

theorem does_fileLen {Q : ℕ → σ → Disk → Prop} (h : d.files[name]? = some f)
    (hQ : Q f.bytes.length a d) (hE : ∀ e, env.Faults (· = ⟨.fileLen, name⟩) e → E e a d) :
    Does env (fileLen name) a d Q E :=
  .ioCall_noEffect (by rw [h]; exact hQ) hE

theorem does_readToEnd {Q : Bytes → σ → Disk → Prop} (h : d.files[name]? = some f)
    (hQ : Q f.bytes a d) (hE : ∀ e, env.Faults (· = ⟨.read, name⟩) e → E e a d) :
    Does env (readToEnd name) a d Q E :=
  .ioCall_noEffect (by rw [h]; exact hQ) hE

/-- The outcome of `readExactAt` on a file. -/
def File.readAt (f : File) (offset len : ℕ) : Except String Bytes :=
  if offset > maxFileLen then .error invalidArgument
  else if 0 < len ∧ offset + len > f.bytes.length then .error unexpectedEof
  else .ok ((f.bytes.drop offset).take len)

theorem does_readExactAt {offset len : ℕ} {Q : Bytes → σ → Disk → Prop}
    (h : d.files[name]? = some f)
    (hQ : match f.readAt offset len with
      | .ok bs => Q bs a d
      | .error msg => E (.err (.ioError msg)) a d)
    (hE : ∀ e, env.Faults (· = ⟨.read, name⟩) e → E e a d) :
    Does env (readExactAt name offset len) a d Q E := by
  refine .ioCall_noEffect ?_ hE
  rw [h]
  unfold File.readAt at hQ
  dsimp only
  split_ifs at hQ ⊢ <;> exact hQ

/-- The file is there, empty if it was missing. -/
theorem does_openAppend {Q : Unit → σ → Disk → Prop}
    (hold : ∀ f, d.files[name]? = some f → Q () a d)
    (hnew : d.files[name]? = none → Q () a (d.put name File.empty))
    (hE : ∀ e, env.Faults (· = ⟨.openAppend, name⟩) e → E e a d) :
    Does env (openAppend name) a d Q E := by
  refine .ioCall_noEffect ?_ hE
  dsimp only
  cases h : d.files[name]? with
  | none =>
    rw [if_neg (by rw [Std.ExtTreeMap.contains_iff_mem, Std.ExtTreeMap.mem_iff_isSome_getElem?, h]; simp)]
    exact hnew h
  | some f =>
    rw [if_pos (by rw [Std.ExtTreeMap.contains_iff_mem, Std.ExtTreeMap.mem_iff_isSome_getElem?, h]; rfl)]
    exact hold f h

theorem does_openWrite {Q : Unit → σ → Disk → Prop} (h : d.files[name]? = some f) (hQ : Q () a d)
    (hE : ∀ e, env.Faults (· = ⟨.openWrite, name⟩) e → E e a d) : Does env (openWrite name) a d Q E :=
  .ioCall_noEffect (by
    rw [if_pos (Std.ExtTreeMap.contains_iff_mem.2 (Std.ExtTreeMap.mem_iff_isSome_getElem?.2 (by rw [h]; rfl)))]
    exact hQ) hE

theorem does_setLen {n : ℕ} {Q : Unit → σ → Disk → Prop} (h : d.files[name]? = some f)
    (hQ : Q () a (d.put name (f.truncate n)))
    (hE : ∀ e, env.Faults (· = ⟨.setLen, name⟩) e → E e a d) : Does env (setLen name n) a d Q E :=
  .ioCall_noEffect (by rw [h]; exact hQ) hE

/-- `exists` answers for the file, or "no" if the call fails. -/
theorem does_pathExists {Q : Bool → σ → Disk → Prop} (hQ : Q (d.files[name]?).isSome a d)
    (hE : ∀ e, env.Faults (· = ⟨.exists, name⟩) e →
      match e with
      | .err _ => Q false a d
      | e => E e a d) :
    Does env (pathExists name) a d Q E := by
  have hcall : Does env (ioCall ⟨.exists, name⟩ noEffect
      (fun d => (.ok (d.files.contains name), d)) : Prog σ Bool) a d Q
      (fun e a' d' => match e with | .err _ => Q false a' d' | e => E e a' d') := by
    refine .ioCall_noEffect ?_ hE
    dsimp only
    rw [Std.ExtTreeMap.contains_eq_isSome_getElem?]
    exact hQ
  intro clock
  have h := hcall clock
  unfold wp FerrumDB.pathExists at *
  cases hc : ioCall ⟨.exists, name⟩ noEffect (fun d => (.ok (d.files.contains name), d))
      (⟨a, d, env, clock⟩ : Mem σ) with
  | ok r s => rw [hc] at h; exact h
  | error e s =>
    rw [hc] at h
    cases e with
    | err e => exact h
    | panic => exact h
    | crash => exact h

theorem does_openTruncate {Q : Unit → σ → Disk → Prop} (hQ : Q () a (d.put name File.empty))
    (hE : ∀ e, env.Faults (· = ⟨.openTruncate, name⟩) e → E e a d) :
    Does env (openTruncate name) a d Q E :=
  .ioCall_noEffect hQ hE

theorem does_writeAll {bs : Bytes} {Q : Unit → σ → Disk → Prop} (h : d.files[name]? = some f)
    (hQ : f.bytes.length + bs.length ≤ maxFileLen → Q () a (d.append name bs))
    (hbig : ¬ f.bytes.length + bs.length ≤ maxFileLen →
      E (.err (.ioError fileTooLarge)) a (d.append name bs))
    (hE : ∀ n f, env n ⟨.write, name⟩ = some f → E f.stop a (tornWrite name bs f d)) :
    Does env (writeAll name bs) a d Q E := by
  refine .ioCall ?_ hE
  rw [h]
  dsimp only
  by_cases hle : f.bytes.length + bs.length ≤ maxFileLen
  · rw [if_pos hle]; exact hQ hle
  · rw [if_neg hle]; exact hbig hle

theorem does_syncAll {Q : Unit → σ → Disk → Prop} (h : d.files[name]? = some f)
    (hQ : Q () a (d.put name f.sync)) (hE : ∀ e, env.Faults (· = ⟨.sync, name⟩) e → E e a d) :
    Does env (syncAll name) a d Q E :=
  .ioCall_noEffect (by rw [h]; exact hQ) hE

/-! ## The files of a disk -/

@[simp] theorem Disk.files_put (d : Disk) (name name' : FileName) (f : File) :
    (d.put name f).files[name']? = if name = name' then some f else d.files[name']? := by
  unfold Disk.put
  rw [Std.ExtTreeMap.getElem?_insert]
  simp only [Std.compare_eq_iff_eq]

@[simp] theorem Disk.locked_put (d : Disk) (name : FileName) (f : File) :
    (d.put name f).locked = d.locked := rfl

theorem Disk.append_of_some {bs : Bytes} (h : d.files[name]? = some f) :
    d.append name bs = d.put name (f.append bs) := by
  unfold Disk.append; rw [h]

theorem Disk.bytesOf_of_some (h : d.files[name]? = some f) : d.bytesOf name = f.bytes := by
  unfold Disk.bytesOf; rw [h]; rfl

theorem File.append_bytes {bs : Bytes} (h : f.bytes.length + bs.length ≤ maxFileLen) :
    (f.append bs).bytes = f.bytes ++ bs := by
  unfold File.append
  dsimp only
  rw [List.take_of_length_le (by omega)]

@[simp] theorem File.sync_bytes (f : File) : f.sync.bytes = f.bytes := rfl

end FerrumDB
