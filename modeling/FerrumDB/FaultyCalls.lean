import FerrumDB.ByteMaps

/-!
# Histories of calls that may fail

Any I/O call of any call on a table may fail, any number of times. A `History` is what the callers see: the
calls in order, each with its reply or its error. A sorted map explains it: calls that returned replied what
the map says, a write that failed happened as a whole or not at all, and a read fails with nothing but an I/O
error (`Explains`). Every history has such an explanation, and the map that it ends in is what the table reads
as from then on, whichever calls fail later (`faulty_history_explained`).
-/

namespace FerrumDB

open CrashLogic

variable {env : Env} {s : Store} {d : Disk} {L : Layers} {p : Prost} {dir : String} {m m₀ : ByteMap}

/-! ## Histories -/

/-- A call that ended, with its reply or its error. -/
structure Event where
  call : Call
  result : Except Error Reply

/-- A sorted map explains the event and is `m'` after it. -/
def Event.Explained (e : Event) (m m' : ByteMap) : Prop :=
  match e.result with
  | .ok r => r = e.call.answer m ∧ m' = e.call.onMap m
  | .error err => (m' = m ∨ m' = e.call.onMap m) ∧ (e.call.op = none → ∃ msg, err = .io msg)

/-- A sorted map explains the events and is `m` after them. -/
inductive Explains (m₀ : ByteMap) : List Event → ByteMap → Prop
  | start : Explains m₀ [] m₀
  | event {events : List Event} {e : Event} {m m' : ByteMap} (before : Explains m₀ events m)
      (explained : e.Explained m m') : Explains m₀ (events ++ [e]) m'

/-- From `x` the call ends with the result, and leaves `y`. -/
def Event.Runs (p : Prost) (e : Event) (x y : Mem Store) : Prop :=
  e.call.reply p x = match e.result with
    | .ok r => .ok r y
    | .error err => .error (.err err) y

/-- The call fits every layers that the store may run on. -/
structure Call.FitsSession (p : Prost) (s : Store) (d : Disk) (c : Call) : Prop where
  op : ∀ op, c.op = some op → SessionFits p s d op
  accepted : c.Accepted

/-- The states of a table whose I/O calls may fail, with the events so far. It starts where a directory of
whole tables opened, whatever its log holds, and `m₀` is what its keys read as. -/
inductive History (p : Prost) (dir : String) (m₀ : ByteMap) : Store → Disk → List Event → Prop
  | opened {s₀ : Store} {d : Disk} {n : ℕ} {x : Mem Store} (free : d.locked = false) (whole : d.Whole p)
      (run : Store.openWithDir p dir ⟨s₀, d, Env.quiet, n⟩ = .ok () x)
      (reads : ∀ key, Returns (Store.getValue p key) x.self x.disk fun r _ _ => r = m₀.read key) :
      History p dir m₀ x.self x.disk []
  | event {s : Store} {d : Disk} {events : List Event} {e : Event} {env : Env} {n : ℕ} {x : Mem Store}
      (before : History p dir m₀ s d events) (fits : e.call.FitsSession p s d) (run : e.Runs p ⟨s, d, env, n⟩ x) :
      History p dir m₀ x.self x.disk (events ++ [e])

/-! ## One event -/

/-- A store reads as its layers whichever calls fail, and a read changes no file. -/
theorem readsMap_running (hp : p.Lawful) (env : Env) (d : Disk) (hread : L.get = m.read) :
    ReadsMap p env m (fun s d' => Running p s d' L ∧ d' = d) (env.Faults (onTables L)) where
  get key s d' h := by
    obtain ⟨h, rfl⟩ := h
    exact h.does_getValue hp (fun _ h' => ⟨congrFun hread key, h', rfl⟩) fun e he _ h' => ⟨he, h', rfl⟩
  scan lo hi s d' hacc h := by
    obtain ⟨h, rfl⟩ := h
    exact does_scanRange hp h (Or.inr hacc) ⟨scan_eq_pairs hread lo hi, h, rfl⟩ fun e he => ⟨he, h, rfl⟩

/-- A read fails as an I/O call does. -/
theorem ofStop_of_faults {P : IoCall → Prop} {e : Stop} (h : env.Faults P e) :
    (∃ msg, Failure.ofStop e = .err (.io msg)) ∨ Failure.ofStop e = .crash := by
  rcases h.cases with ⟨msg, rfl⟩ | rfl
  · exact Or.inl ⟨msg, rfl⟩
  · exact Or.inr rfl

/-- A writing call that ended ran its operation to the same end. -/
theorem Event.Runs.op {e : Event} {op : Op} {x y : Mem Store} (h : e.Runs p x y) (hc : e.call.op = some op)
    (dir : String) :
    (e.result = .ok .done ∧ op.run p dir x = .ok () y) ∨
      ∃ err err', e.result = .error err ∧ op.run p dir x = .error (.err err') y := by
  unfold Event.Runs at h
  rw [(writes_of_op hc).1, run_of_op dir hc] at h
  cases hop : op.run p dir x with
  | ok r z =>
    rw [bind_ok (core_ok hop)] at h
    cases hr : e.result with
    | ok r => rw [hr] at h; cases h; exact Or.inl ⟨rfl, rfl⟩
    | error err => rw [hr] at h; cases h
  | error e' z =>
    have hcore : core (op.run p dir) x = .error (.ofStop e') z := by
      unfold core
      rw [hop]
    rw [bind_error hcore] at h
    cases hr : e.result with
    | ok r => rw [hr] at h; cases h
    | error err =>
      rw [hr] at h
      cases e' with
      | err e' => cases h; exact Or.inr ⟨_, e', rfl, rfl⟩
      | panic => cases h
      | crash => cases h

section Op

variable {c : Call} {op : Op} {n : ℕ} {x : Mem Store}

/-- A writing call that returned has happened. -/
theorem Reads.wrote (hp : p.Lawful) (h : Reads p m.read s d) (hc : c.op = some op) (hfits : SessionFits p s d op)
    (hrun : op.run p dir ⟨s, d, env, n⟩ = .ok () x) : Reads p (c.onMap m).read x.self x.disk := by
  obtain ⟨L, hL, hread⟩ := h
  have hreads := hL.reads_reached hp (op_ne_reopen hc) (hfits L hL) (Or.inl hrun)
  rwa [reached_of_ok hrun, hread, ← read_onMap hc] at hreads

/-- One that failed has happened as a whole or not at all. -/
theorem Reads.failed (hp : p.Lawful) (h : Reads p m.read s d) (hc : c.op = some op) (hfits : SessionFits p s d op)
    {err : AppError} (hrun : op.run p dir ⟨s, d, env, n⟩ = .error (.err err) x) :
    ∃ m', (m' = m ∨ m' = c.onMap m) ∧ Reads p m'.read x.self x.disk := by
  obtain ⟨L, hL, hread⟩ := h
  have hreads : Reads p (op.reached p ⟨s, d, env, n⟩ m.read) x.self x.disk := by
    rw [← hread]
    exact hL.reads_reached hp (op_ne_reopen hc) (hfits L hL) (Or.inr ⟨err, hrun⟩)
  rcases reached_of_error (m := m.read) hrun with hsame | hfail
  · rw [hsame] at hreads
    exact ⟨m, Or.inl rfl, hreads⟩
  · obtain ⟨b, y, _, _, hb, hrec, -⟩ := hfail
    have happlied : op.reached p ⟨s, d, env, n⟩ m.read = op.apply m.read := reached_of_recorded hb hrec
    rw [happlied, ← read_onMap hc] at hreads
    exact ⟨_, Or.inr rfl, hreads⟩

end Op

/-- **One event** is explained by the map that the table read as, and the table reads as the map after it. -/
theorem Reads.explained (hp : p.Lawful) (h : Reads p m.read s d) {e : Event} (hfits : e.call.FitsSession p s d)
    {n : ℕ} {x : Mem Store} (hrun : e.Runs p ⟨s, d, env, n⟩ x) :
    ∃ m', e.Explained m m' ∧ Reads p m'.read x.self x.disk := by
  unfold Event.Explained
  cases hc : e.call.op with
  | some op =>
    rcases hrun.op hc "" with ⟨hr, hok⟩ | ⟨err, err', hr, herr⟩
    · rw [hr]
      exact ⟨_, ⟨((writes_of_op (p := p) hc).2 m).symm, rfl⟩, h.wrote hp hc (hfits.op op hc) hok⟩
    · rw [hr]
      obtain ⟨m', hm', hreads⟩ := h.failed hp hc (hfits.op op hc) herr
      exact ⟨m', ⟨hm', nofun⟩, hreads⟩
  | none =>
    obtain ⟨L, hL, hread⟩ := h
    have hreply := (readsMap_running hp env d hread).replies ⟨hL, rfl⟩ hc hfits.accepted n
    refine ⟨m, ?_⟩
    unfold Event.Runs at hrun
    cases hr : e.result with
    | ok r =>
      rw [hr] at hrun
      obtain ⟨-, hanswer, hL', -⟩ := wp.of_ok hrun hreply
      exact ⟨⟨hanswer, (onMap_of_op_eq_none hc m).symm⟩, L, hL', hread⟩
    | error err =>
      rw [hr] at hrun
      obtain ⟨-, e', heq, hfault, hL', -⟩ := wp.of_error hrun hreply
      refine ⟨⟨Or.inl rfl, fun _ => ?_⟩, L, hL', hread⟩
      rcases ofStop_of_faults hfault with ⟨msg, hio⟩ | hcrash
      · rw [hio] at heq
        cases heq
        exact ⟨msg, rfl⟩
      · rw [hcrash] at heq
        cases heq

/-! ## Runs -/

/-- A call that only reads replies what the map says, or fails with an I/O error or a crash; without a failing
call it replies. It changes no file. -/
structure ReadsSteadily (p : Prost) (m : ByteMap) (s : Store) (d : Disk) (c : Call) : Prop where
  replies : ∀ env, Replies env (c.reply p) s d (fun r _ d' => r = c.answer m ∧ d' = d)
    fun e _ d' => ((∃ msg, e = .err (.io msg)) ∨ e = .crash) ∧ d' = d
  answers : Answers (c.reply p) s d fun r _ _ => r = c.answer m

theorem Reads.steadily (hp : p.Lawful) (h : Reads p m.read s d) {c : Call} (hc : c.op = none) (hacc : c.Accepted) :
    ReadsSteadily p m s d c := by
  obtain ⟨L, hL, hread⟩ := h
  have hreply := fun env => (readsMap_running hp env d hread).replies ⟨hL, rfl⟩ hc hacc
  refine ⟨fun env => ?_, ?_⟩
  · refine (hreply env).mono (fun _ _ _ hr => ⟨hr.1, hr.2.2⟩) fun e _ _ he => ?_
    obtain ⟨e', rfl, hfault, -, hd⟩ := he
    exact ⟨ofStop_of_faults hfault, hd⟩
  · refine (hreply Env.quiet).mono (fun _ _ _ hr => hr.1) fun e _ _ he => ?_
    obtain ⟨e', -, hfault, -⟩ := he
    exact Env.not_faults_quiet hfault

/-- **The invariant of a history**: it is explained, and the table reads as the map it ends in. -/
theorem History.reads (hp : p.Lawful) {events : List Event} (h : History p dir m₀ s d events) :
    ∃ m, Explains m₀ events m ∧ Reads p m.read s d := by
  induction h with
  | opened hfree hwhole hrun hreads =>
    exact ⟨m₀, .start, (Session.opened hfree hwhole hrun hreads).reads hp⟩
  | event _ hfits hrun ih =>
    obtain ⟨m, hm, hreads⟩ := ih
    obtain ⟨m', he, hreads'⟩ := hreads.explained hp hfits hrun
    exact ⟨m', hm.event he, hreads'⟩

/-- **Histories with failing calls are those of a sorted map.** Whichever I/O calls fail, a table whose calls
fit replies as a sorted map would whose failed writes happened as a whole or not at all; and from then on it
reads as that map, or fails with an I/O error, and no read changes a file or panics. -/
theorem faulty_history_explained (hp : p.Lawful) {events : List Event} (h : History p dir m₀ s d events) :
    ∃ m, Explains m₀ events m ∧ ∀ c : Call, c.op = none → c.Accepted → ReadsSteadily p m s d c := by
  obtain ⟨m, hm, hreads⟩ := h.reads hp
  exact ⟨m, hm, fun _ hc hacc => hreads.steadily hp hc hacc⟩

/-- The put of a key and a value of one byte. -/
def bytePut (key value : UInt8) : Call := .put [key] [value]

theorem bytePut_fitsSession {key value : UInt8} (hnil : s.sstables.length = 0)
    (hfits : Op.Fits p s.memory (.setValue [key] (.bytes [value]))) : (bytePut key value).FitsSession p s d := by
  refine ⟨?_, trivial⟩
  rintro op hop
  cases hop
  exact sessionFits_of_memory hnil hfits

set_option synthInstance.maxSize 1000 in
/-- A put, another one that the file system has no room for, and a look at both keys. -/
theorem faulty_history_explained_puts : ∃ s d events, History Prost.wire "db" ∅ s d events ∧
    events.map Event.result = [.ok .done, .error (.io noSpace), .ok (.values [some [1], none])] ∧
    ∃ m, Explains ∅ events m ∧ ∀ c : Call, c.op = none → c.Accepted → ReadsSteadily Prost.wire m s d c := by
  have hruns : wp (Store.openWithDir Prost.wire "db")
      ⟨Store.fresh "db" ⟨walName, false⟩, Disk.empty, Env.quiet, 0⟩
      (fun _ x => Op.Fits Prost.wire x.self.memory (.setValue [1] (.bytes [1])) ∧ x.self.sstables.length = 0 ∧
        wp ((bytePut 1 1).reply Prost.wire) ⟨x.self, x.disk, Env.quiet, 0⟩
          (fun r y => r = .done ∧ Op.Fits Prost.wire y.self.memory (.setValue [2] (.bytes [2])) ∧
            y.self.sstables.length = 0 ∧
            wp ((bytePut 2 2).reply Prost.wire) ⟨y.self, y.disk, Env.failsOn ⟨.write, walName⟩, 0⟩
              (fun _ _ => False)
              fun e z => e = .err (.io noSpace) ∧
                wp ((Call.getBatch [[1], [2]]).reply Prost.wire) ⟨z.self, z.disk, Env.quiet, 0⟩
                  (fun r _ => r = .values [some [1], none]) fun _ _ => False)
          fun _ _ => False)
      fun _ _ => False := by decide +kernel
  obtain ⟨_, x, hopen, hfits, hnil, hruns⟩ := hruns.returns
  obtain ⟨_, y, hput, rfl, hfits', hnil', hruns⟩ := hruns.returns
  obtain ⟨_, z, hfail, rfl, hruns⟩ := hruns.stops
  obtain ⟨_, w, hget, rfl⟩ := hruns.returns
  have hnew : History Prost.wire "db" ∅ x.self x.disk [] := by
    have hagrees := stored_empty.agrees_of_open wire_lawful rfl hopen
    refine .opened rfl ⟨[], stored_empty.toTablesStored⟩ hopen fun key => ?_
    rw [read_empty]
    exact does_getValue wire_lawful hagrees.toFollows (fun _ _ => congrFun get_empty key)
      fun _ he => absurd he Env.not_faults_quiet
  have hwritten := hnew.event (e := ⟨bytePut 1 1, .ok .done⟩) (bytePut_fitsSession hnil hfits) hput
  have hfailed := hwritten.event (e := ⟨bytePut 2 2, .error (.io noSpace)⟩) (bytePut_fitsSession hnil' hfits') hfail
  have hread := hfailed.event (e := ⟨.getBatch [[1], [2]], .ok (.values [some [1], none])⟩) ⟨nofun, trivial⟩ hget
  exact ⟨_, _, _, hread, rfl, faulty_history_explained wire_lawful hread⟩

end FerrumDB
