import FerrumDB.PrefixScans

/-!
# A table is a sorted map of byte strings

A `ByteMap` is what a table is for. Every call of the API has a meaning on it: what the call does to the map
(`Call.onMap`), and what it replies (`Call.answer`). A call on a store that agrees with layers which read as
the map replies what the map says, and leaves layers that read as the new map (`Call.answers`). So a run of
calls and reopenings that fits replies, call by call, what the sorted map does (`table_is_sorted_map`).
-/

namespace FerrumDB

open CrashLogic

variable {α β : Type} {s : Store} {d : Disk} {L : Layers} {p : Prost} {dir : String}

/-! ## Replies -/

/-- What a call on a table returns. -/
inductive Reply where
  | done
  | value (v : Option Bytes)
  | present (b : Bool)
  | values (vs : List (Option Bytes))
  | pairs (ps : List (Bytes × Bytes))
  deriving DecidableEq, Repr

/-- A call, with what it returns. -/
def Call.reply (p : Prost) : Call → Api Reply
  | .put key value => do
    Table.put p key value
    return .done
  | .get key => return .value (← Table.get p key)
  | .contains key => return .present (← Table.contains p key)
  | .delete key => do
    Table.delete p key
    return .done
  | .putBatch entries => do
    Table.putBatch p entries
    return .done
  | .getBatch keys => return .values (← Table.getBatch p keys)
  | .commit calls => do
    (Txn.after calls).commit p
    return .done
  | .rollback calls => do
    (Txn.after calls).rollback
    return .done
  | .txnGet calls key => return .value (← (Txn.after calls).get p key)
  | .scan => return .pairs (← Table.scan p)
  | .range start stop => return .pairs (← Table.range p start stop)
  | .scanPrefix start => return .pairs (← Table.scanPrefix p start)

theorem run_eq_discard (c : Call) : c.run p = discard (c.reply p) := by
  cases c <;> simp [Call.run, Call.reply, discard, Functor.discard, map_const]

theorem discard_ok {c : Api α} {x y : Mem Store} {r : α} (h : c x = .ok r y) : discard c x = .ok () y := by
  show EStateM.map _ _ _ = _
  unfold EStateM.map
  rw [h]

theorem discard_error {c : Api α} {x y : Mem Store} {e : Failure} (h : c x = .error e y) :
    discard c x = .error e y := by
  show EStateM.map _ _ _ = _
  unfold EStateM.map
  rw [h]

/-! ## Sorted maps -/

/-- What a table is for. -/
abbrev ByteMap := Std.ExtTreeMap Bytes Bytes compare

/-- `some v` is a put, `none` a delete. -/
def ByteMap.write (m : ByteMap) (e : Bytes × Option Bytes) : ByteMap :=
  match e.2 with
  | some v => m.insert e.1 v
  | none => m.erase e.1

/-- Puts and deletes in order. -/
def ByteMap.after (m : ByteMap) (calls : List (Bytes × Option Bytes)) : ByteMap := calls.foldl ByteMap.write m

/-- The pairs with these keys, in order. -/
def ByteMap.pairs (m : ByteMap) (within : Bytes → Bool) : List (Bytes × Bytes) :=
  m.toList.filter fun e => within e.1

/-- What a call does to the map. -/
def Call.onMap (m : ByteMap) : Call → ByteMap
  | .put key value => m.insert key value
  | .delete key => m.erase key
  | .putBatch entries => m.after (entries.map fun e => (e.1, some e.2))
  | .commit calls => m.after calls
  | _ => m

/-- What a call replies. -/
def Call.answer (m : ByteMap) : Call → Reply
  | .put _ _ | .delete _ | .putBatch _ | .commit _ | .rollback _ => .done
  | .get key => .value m[key]?
  | .contains key => .present (m.contains key)
  | .getBatch keys => .values (keys.map fun key => m[key]?)
  | .txnGet calls key => .value (m.after calls)[key]?
  | .scan => .pairs m.toList
  | .range start stop => .pairs (m.pairs fun key => start ≤ key ∧ key < stop)
  | .scanPrefix start => .pairs (m.pairs fun key => start <+: key)

/-- `BTreeMap::range` accepts the bounds of the call, if it has any. -/
def Call.Accepted : Call → Prop
  | .range start stop => start ≤ stop
  | _ => True

instance (c : Call) : Decidable c.Accepted := by
  cases c <;> unfold Call.Accepted <;> infer_instance

/-- The map as the layers of a table see it. -/
def ByteMap.read (m : ByteMap) : Bytes → Option Value := fun key => m[key]?.map .bytes

theorem read_empty : ByteMap.read ∅ = fun _ => none := by
  funext key
  show Option.map _ (∅ : ByteMap)[key]? = none
  rw [Std.ExtTreeMap.getElem?_empty]
  rfl

theorem read_write (m : ByteMap) (e : Bytes × Option Bytes) :
    (m.write e).read = Function.update m.read e.1 (e.2.map .bytes) := by
  obtain ⟨key, v⟩ := e
  funext k
  unfold ByteMap.read ByteMap.write
  by_cases hk : k = key
  · subst hk
    rw [Function.update_self]
    cases v with
    | none => dsimp only; rw [Std.ExtTreeMap.getElem?_erase_self]
    | some v => dsimp only; rw [Std.ExtTreeMap.getElem?_insert_self]
  · have hne : compare key k ≠ .eq := fun heq => hk (Std.compare_eq_iff_eq.1 heq).symm
    rw [Function.update_of_ne hk]
    cases v with
    | none => dsimp only; rw [Std.ExtTreeMap.getElem?_erase, if_neg hne]
    | some v => dsimp only; rw [Std.ExtTreeMap.getElem?_insert, if_neg hne]

theorem read_after (m : ByteMap) (calls : List (Bytes × Option Bytes)) :
    (m.after calls).read = applyMap m.read (storeCalls calls) := by
  induction calls generalizing m with
  | nil => rfl
  | cons e calls ih =>
    have hread := ih (m.write e)
    rw [read_write] at hread
    exact hread

/-- A writing call does to the map what its operation does to what the keys read as. -/
theorem read_onMap {c : Call} {op : Op} (h : c.op = some op) (m : ByteMap) :
    (c.onMap m).read = op.apply m.read := by
  cases c with
  | put key value => cases h; exact read_write m (key, some value)
  | delete key => cases h; exact read_write m (key, none)
  | putBatch entries =>
    cases h
    have hread := read_after m (entries.map fun e => (e.1, some e.2))
    unfold storeCalls at hread
    rw [List.map_map] at hread
    exact hread
  | commit calls => cases h; exact read_after m calls
  | rollback calls => cases h; rfl
  | _ => cases h

theorem onMap_of_op_eq_none {c : Call} (h : c.op = none) (m : ByteMap) : c.onMap m = m := by
  cases c with
  | put key value => cases h
  | delete key => cases h
  | putBatch entries => cases h
  | commit calls => cases h
  | _ => rfl

/-- A scan of layers that read as the map lists its pairs. -/
theorem scan_eq_pairs {m : ByteMap} (h : L.get = m.read) (lo hi : Bound) :
    L.scan lo hi = (m.pairs fun key => inBounds key lo hi).map fun e => (e.1, .bytes e.2) := by
  have hsorted : (m.pairs fun key => inBounds key lo hi).Pairwise fun x y => x.1 < y.1 :=
    (OrderedMap.pairwise_lt_toList m).filter _
  refine OrderedMap.eq_of_mem_iff (scan_ascending L) (List.pairwise_map.2 hsorted) ?_
  rintro ⟨key, v⟩
  rw [mem_scan, h, List.mem_map]
  constructor
  · rintro ⟨hin, hv⟩
    obtain ⟨bytes, hbytes, rfl⟩ := Option.map_eq_some_iff.1 hv
    exact ⟨(key, bytes), List.mem_filter.2 ⟨Std.ExtTreeMap.mem_toList_iff_getElem?_eq_some.2 hbytes, hin⟩, rfl⟩
  · rintro ⟨⟨k, bytes⟩, he, heq⟩
    cases heq
    obtain ⟨hmem, hin⟩ := List.mem_filter.1 he
    refine ⟨hin, ?_⟩
    show Option.map _ m[k]? = _
    rw [Std.ExtTreeMap.mem_toList_iff_getElem?_eq_some.1 hmem]
    rfl

/-! ## Calls that reply or fail -/

/-- From the store `s` and the disk `d`, the call replies with `Q`, or it stops with `E`. -/
def Replies (env : Env) (c : Api α) (s : Store) (d : Disk) (Q : α → Store → Disk → Prop)
    (E : Failure → Store → Disk → Prop) : Prop :=
  ∀ n, wp c ⟨s, d, env, n⟩ (fun r x => x.env = env ∧ Q r x.self x.disk)
    fun e x => x.env = env ∧ E e x.self x.disk

/-- With no I/O failure, the call returns with `Q`. -/
abbrev Answers (c : Api α) (s : Store) (d : Disk) (Q : α → Store → Disk → Prop) : Prop :=
  Replies Env.quiet c s d Q fun _ _ _ => False

section Replies

variable {env : Env} {Q : α → Store → Disk → Prop} {E : Failure → Store → Disk → Prop}

theorem Replies.pure {r : α} (h : Q r s d) : Replies env (pure r) s d Q E := fun _ => ⟨rfl, h⟩

theorem Replies.bind {c : Api β} {f : β → Api α} {R : β → Store → Disk → Prop} (h : Replies env c s d R E)
    (hf : ∀ r s' d', R r s' d' → Replies env (f r) s' d' Q E) : Replies env (c >>= f) s d Q E := by
  intro n
  refine (h n).seq fun r x hx => ?_
  obtain ⟨s', d', env', n'⟩ := x
  obtain ⟨rfl, hr⟩ := hx
  exact hf r s' d' hr n'

theorem Replies.map {c : Api β} {f : β → α} (h : Replies env c s d (fun r s' d' => Q (f r) s' d') E) :
    Replies env (do return f (← c)) s d Q E :=
  h.bind fun _ _ _ hr => .pure hr

theorem Replies.core {m : Prog Store α} {F : Stop → Store → Disk → Prop} (h : Does env m s d Q F) :
    Replies env (core m) s d Q fun e s' d' => ∃ e', e = .ofStop e' ∧ F e' s' d' := by
  intro n
  have hm := h n
  unfold wp FerrumDB.core at *
  cases hrun : m ⟨s, d, env, n⟩ with
  | ok r x => rw [hrun] at hm; exact hm
  | error e x => rw [hrun] at hm; exact ⟨hm.1, e, rfl, hm.2⟩

theorem Replies.ofResult {r : Except Error α} {a : α} (hr : r = .ok a) (h : Q a s d) :
    Replies env (ofResult r) s d Q E := by
  rw [hr]
  exact .pure h

theorem Replies.mono {c : Api α} {Q' : α → Store → Disk → Prop} {E' : Failure → Store → Disk → Prop}
    (h : Replies env c s d Q E) (hQ : ∀ r s' d', Q r s' d' → Q' r s' d')
    (hE : ∀ e s' d', E e s' d' → E' e s' d') : Replies env c s d Q' E' := fun n =>
  (h n).mono (fun _ _ hq => ⟨hq.1, hQ _ _ _ hq.2⟩) fun _ _ he => ⟨he.1, hE _ _ _ he.2⟩

theorem Answers.core {m : Prog Store α} (h : Returns m s d Q) : Answers (core m) s d Q :=
  (Replies.core h).mono (fun _ _ _ hq => hq) fun _ _ _ ⟨_, _, he⟩ => he

theorem Answers.mono {c : Api α} {Q' : α → Store → Disk → Prop} (h : Answers c s d Q)
    (hQ : ∀ r s' d', Q r s' d' → Q' r s' d') : Answers c s d Q' :=
  Replies.mono h hQ fun _ _ _ he => he

/-- The run of a call that returns. -/
theorem Answers.run {c : Api α} (h : Answers c s d Q) (n : ℕ) :
    ∃ r x, c ⟨s, d, Env.quiet, n⟩ = .ok r x ∧ x.env = Env.quiet ∧ Q r x.self x.disk :=
  ((h n).mono (fun _ _ hq => hq) fun _ _ he => he.2).returns

end Replies

/-! ## Reading calls on a table of bytes -/

/-- While the assertion `I` holds, the reads of the store answer as the map does or stop with `F`, and keep
`I`. -/
structure ReadsMap (p : Prost) (env : Env) (m : ByteMap) (I : Store → Disk → Prop) (F : Stop → Prop) : Prop where
  get : ∀ key s d, I s d → Does env (Store.getValue p key) s d (fun r s' d' => r = m.read key ∧ I s' d')
    fun e s' d' => F e ∧ I s' d'
  scan : ∀ lo hi s d, rangeAccepts lo hi = true → I s d → Does env (Store.scanRange p lo hi) s d
    (fun r s' d' => r = (m.pairs fun key => inBounds key lo hi).map (fun e => (e.1, .bytes e.2)) ∧ I s' d')
    fun e s' d' => F e ∧ I s' d'

section ReadsMap

variable {env : Env} {m : ByteMap} {I : Store → Disk → Prop} {F : Stop → Prop} (h : ReadsMap p env m I F) (hI : I s d)

include h hI

theorem ReadsMap.replies_get (key : Bytes) : Replies env (Table.get p key) s d
    (fun r s' d' => r = m[key]? ∧ I s' d') fun e s' d' => ∃ e', e = .ofStop e' ∧ F e' ∧ I s' d' := by
  refine (Replies.core (h.get key s d hI)).bind fun r s' d' hr => ?_
  obtain ⟨rfl, h'⟩ := hr
  refine .ofResult ?_ ⟨rfl, h'⟩
  unfold ByteMap.read
  cases m[key]? <;> rfl

theorem ReadsMap.replies_getBatch (keys : List Bytes) : Replies env (Table.getBatch p keys) s d
    (fun r s' d' => r = keys.map (fun key => m[key]?) ∧ I s' d')
    fun e s' d' => ∃ e', e = .ofStop e' ∧ F e' ∧ I s' d' := by
  induction keys generalizing s d with
  | nil => exact .pure ⟨rfl, hI⟩
  | cons key keys ih =>
    refine (h.replies_get hI key).bind fun _ s' d' hr => ?_
    obtain ⟨rfl, h'⟩ := hr
    refine (ih h').bind fun _ s'' d'' hr => ?_
    obtain ⟨rfl, h''⟩ := hr
    exact .pure ⟨rfl, h''⟩

theorem ReadsMap.replies_txnGet (calls : List (Bytes × Option Bytes)) (key : Bytes) :
    Replies env ((Txn.after calls).get p key) s d (fun r s' d' => r = (m.after calls)[key]? ∧ I s' d')
      fun e s' d' => ∃ e', e = .ofStop e' ∧ F e' ∧ I s' d' := by
  have hafter := congrFun (read_after m calls) key
  rw [applyMap_buffered] at hafter
  unfold Txn.get Transaction.getValue
  rw [inner_after]
  cases hk : (buffered (storeCalls calls)).pending[key]? with
  | none =>
    rw [hk, Option.getD_none] at hafter
    have hsame : (m.after calls)[key]? = m[key]? := by
      unfold ByteMap.read at hafter
      exact Option.map_injective (fun _ _ heq => Value.bytes.inj heq) hafter
    rw [hsame]
    exact h.replies_get hI key
  | some v =>
    rw [hk, Option.getD_some] at hafter
    refine .ofResult ?_ ⟨rfl, hI⟩
    rw [← hafter]
    unfold ByteMap.read
    cases (m.after calls)[key]? <;> rfl

theorem ReadsMap.replies_rangeBounds {lo hi : Bound} (hacc : rangeAccepts lo hi = true) :
    Replies env (Table.rangeBounds p lo hi) s d (fun r s' d' => r = m.pairs (fun key => inBounds key lo hi) ∧ I s' d')
      fun e s' d' => ∃ e', e = .ofStop e' ∧ F e' ∧ I s' d' := by
  refine (Replies.core (h.scan lo hi s d hacc hI)).bind fun r s' d' hr => ?_
  obtain ⟨rfl, h'⟩ := hr
  refine .ofResult ?_ ⟨rfl, h'⟩
  rw [bytesPairs_map, List.nil_append]

/-- **A reading call** replies what the sorted map does, or stops where a read of the store does. -/
theorem ReadsMap.replies {c : Call} (hc : c.op = none) (hacc : c.Accepted) :
    Replies env (c.reply p) s d (fun r s' d' => r = c.answer m ∧ I s' d')
      fun e s' d' => ∃ e', e = .ofStop e' ∧ F e' ∧ I s' d' := by
  cases c with
  | get key =>
    exact .map ((h.replies_get hI key).mono (fun _ _ _ hr => ⟨congrArg _ hr.1, hr.2⟩) fun _ _ _ he => he)
  | contains key =>
    refine .map (.map ((h.replies_get hI key).mono (fun r _ _ hr => ⟨?_, hr.2⟩) fun _ _ _ he => he))
    rw [hr.1]
    exact congrArg Reply.present Std.ExtTreeMap.contains_eq_isSome_getElem?.symm
  | getBatch keys =>
    exact .map ((h.replies_getBatch hI keys).mono (fun _ _ _ hr => ⟨congrArg _ hr.1, hr.2⟩) fun _ _ _ he => he)
  | txnGet calls key =>
    exact .map ((h.replies_txnGet hI calls key).mono (fun _ _ _ hr => ⟨congrArg _ hr.1, hr.2⟩) fun _ _ _ he => he)
  | scan =>
    refine .map ((h.replies_rangeBounds hI rfl).mono (fun _ _ _ hr => ⟨?_, hr.2⟩) fun _ _ _ he => he)
    rw [hr.1]
    exact congrArg Reply.pairs (List.filter_eq_self.2 fun _ _ => rfl)
  | range start stop =>
    have hacc : rangeAccepts (.included start) (.excluded stop) = true := decide_eq_true hacc
    refine .map ((h.replies_rangeBounds hI hacc).mono (fun _ _ _ hr => ⟨?_, hr.2⟩) fun _ _ _ he => he)
    rw [hr.1]
    refine congrArg Reply.pairs (List.filter_congr fun e _ => ?_)
    simp [inBounds, Bound.aboveLo, Bound.belowHi]
  | scanPrefix start =>
    have hscan := h.replies_rangeBounds hI (rangeAccepts_prefixEnd start)
    rw [← scanPrefix_eq] at hscan
    refine .map (hscan.mono (fun _ _ _ hr => ⟨?_, hr.2⟩) fun _ _ _ he => he)
    rw [hr.1]
    exact congrArg Reply.pairs (List.filter_congr fun e _ => inBounds_prefix start e.1)
  | _ => cases hc

end ReadsMap

/-- A store without failing calls reads as its layers, and keeps them. -/
theorem readsMap_agrees (hp : p.Lawful) {m : ByteMap} (hread : L.get = m.read) :
    ReadsMap p Env.quiet m (fun s d => Agrees p s d L [] []) fun _ => False where
  get key s d h := does_getValue hp h.toFollows (fun _ h' => ⟨congrFun hread key, { h', h.toLogStored with }⟩)
    fun _ he => absurd he Env.not_faults_quiet
  scan lo hi s d hacc h := by
    refine does_scanRange hp h.toFollows.running (Or.inr hacc) ⟨scan_eq_pairs hread lo hi, h⟩ fun _ he => ?_
    exact absurd he Env.not_faults_quiet

/-! ## One call -/

/-- The call fits the layers: what it writes, and the bounds it scans. -/
structure Call.FitsLayers (p : Prost) (L : Layers) (c : Call) : Prop where
  op : ∀ op, c.op = some op → op.Fits p L
  accepted : c.Accepted

/-- The layers after a call. -/
def Call.step (L : Layers) (c : Call) : Layers := c.op.elim L fun op => op.step L

/-- The store agrees with layers that read as the map. -/
def Table.Holds (p : Prost) (L : Layers) (m : ByteMap) (s : Store) (d : Disk) : Prop :=
  Agrees p s d L [] [] ∧ L.get = m.read

theorem writes_of_op {c : Call} {op : Op} (h : c.op = some op) :
    c.reply p = (do c.run p; return .done) ∧ ∀ m, c.answer m = .done := by
  cases c with
  | get key => cases h
  | contains key => cases h
  | getBatch keys => cases h
  | txnGet calls key => cases h
  | scan => cases h
  | range start stop => cases h
  | scanPrefix start => cases h
  | _ => exact ⟨rfl, fun _ => rfl⟩

/-- **One call** replies what the sorted map does. -/
theorem Call.answers (hp : p.Lawful) {c : Call} {m : ByteMap} (h : Table.Holds p L m s d) (hfits : c.FitsLayers p L) :
    Answers (c.reply p) s d fun r s' d' => r = c.answer m ∧ Table.Holds p (c.step L) (c.onMap m) s' d' := by
  obtain ⟨hagrees, hread⟩ := h
  cases hc : c.op with
  | some op =>
    obtain ⟨hreply, hanswer⟩ := writes_of_op (p := p) hc
    have hop : Returns (op.run p "") s d fun _ s' d' => Agrees p s' d' (op.step L) [] [] :=
      returns_op hp hagrees (hfits.op op hc)
    rw [hreply, run_of_op "" hc]
    refine (Answers.core hop).bind fun _ s' d' h' => .pure ⟨(hanswer m).symm, ?_⟩
    have hstep : c.step L = op.step L := by
      unfold Call.step
      rw [hc]
      rfl
    rw [hstep]
    exact ⟨h', by rw [get_step, hread, read_onMap hc]⟩
  | none =>
    refine ((readsMap_agrees hp hread).replies hagrees hc hfits.accepted).mono (fun _ s' d' hr => ⟨hr.1, ?_⟩)
      fun _ _ _ ⟨_, _, he, _⟩ => he
    unfold Call.step
    rw [hc, onMap_of_op_eq_none hc]
    exact ⟨hr.2, hread⟩

/-- Of the log of the layers its length matters. -/
theorem Op.Fits.withLog {op : Op} (hfits : op.Fits p L) {log : List WalEntry}
    (hlog : (logBytes p log).length = (logBytes p L.log).length) : op.Fits p { L with log } := by
  have hcommit : ∀ b, L.CommitFits p b → Layers.CommitFits p b { L with log } := by
    intro b hb
    have hroom := hb.write.log
    refine ⟨⟨?_, hb.write.sequence⟩, fun hfull hne => ?_⟩
    · unfold Layers.write at hroom ⊢
      rw [logBytes_append, List.length_append] at hroom ⊢
      rwa [hlog]
    · have hflush := hb.flush hfull hne
      exact ⟨⟨hflush.table.table, hflush.table.nextId⟩, hflush.compact⟩
  cases op with
  | setValue key value => exact hcommit _ hfits
  | deleteValue key => exact hcommit _ hfits
  | commit calls => exact fun hne => hcommit _ (hfits hne)
  | flush => exact fun hne => ⟨⟨(hfits hne).table.table, (hfits hne).table.nextId⟩, (hfits hne).compact⟩
  | compact => exact fun hlen hne => ⟨(hfits hlen hne).table, (hfits hlen hne).nextId⟩
  | _ => trivial

/-- The call fits the layers of the store. -/
def Call.FitsStore (p : Prost) (s : Store) (d : Disk) (c : Call) : Prop :=
  ∀ L, Agrees p s d L [] [] → c.FitsLayers p L

/-- A call that fits the memory of a store without tables, and the length of its log, fits the store. -/
theorem Call.fitsStore_of_memory {c : Call} (log : List WalEntry) (hnil : s.sstables.length = 0)
    (hlog : (d.bytesOf walName).length = (logBytes p log).length) (hfits : c.FitsLayers p { s.memory with log }) :
    c.FitsStore p s d := by
  intro L h
  have htables : L.tables = [] := List.length_eq_zero_iff.1 (h.handles.length_eq.symm.trans hnil)
  have hmemory : L = { s.memory with log := L.log } := by
    unfold Store.memory
    rw [h.data, h.budget, h.sequence, h.nextId, ← htables]
  have hlen : (logBytes p L.log).length = (logBytes p log).length := by
    rw [← hlog, h.bytes, List.append_nil, List.append_nil]
  refine ⟨fun op hop => ?_, hfits.accepted⟩
  rw [hmemory]
  exact (hfits.op op hop).withLog hlen

theorem Call.fitsLayers_of_reads {c : Call} (hc : c.op = none) (hacc : c.Accepted) : c.FitsLayers p L :=
  ⟨fun _ hop => absurd (hc.symm.trans hop) nofun, hacc⟩

/-! ## Runs -/

/-- A step of a session: a call, or dropping the table and opening it again. -/
inductive TableStep where
  | call (c : Call)
  | reopen

/-- Run the steps, and list what the calls reply. -/
def runSteps (p : Prost) (dir : String) : List TableStep → Api (List Reply)
  | [] => return []
  | .call c :: steps => do
    let r ← c.reply p
    let rest ← runSteps p dir steps
    return r :: rest
  | .reopen :: steps => do
    core (Op.reopen.run p dir)
    runSteps p dir steps

/-- Open a new table and run steps on it. -/
def runTable (p : Prost) (dir : String) (steps : List TableStep) : Api (List Reply) := do
  core (Store.openWithDir p dir)
  runSteps p dir steps

/-- What the sorted map replies. -/
def ByteMap.answers : ByteMap → List TableStep → List Reply
  | _, [] => []
  | m, .call c :: steps => c.answer m :: ByteMap.answers (c.onMap m) steps
  | m, .reopen :: steps => ByteMap.answers m steps

/-- Every call of a run fits. -/
def StepsFit (p : Prost) : Layers → List TableStep → Prop
  | _, [] => True
  | L, .call c :: steps => c.FitsLayers p L ∧ StepsFit p (c.step L) steps
  | L, .reopen :: steps => StepsFit p L.reopen steps

instance (L : Layers) (c : Call) : Decidable (c.FitsLayers p L) :=
  have : Decidable (∀ op, c.op = some op → op.Fits p L) :=
    match h : c.op with
    | none => isTrue nofun
    | some op => decidable_of_iff (op.Fits p L) ⟨fun hop _ heq => by cases heq; exact hop, fun hop => hop op rfl⟩
  decidable_of_iff ((∀ op, c.op = some op → op.Fits p L) ∧ c.Accepted) ⟨fun h => ⟨h.1, h.2⟩, fun h => ⟨h.op, h.accepted⟩⟩

instance decidableStepsFit (L : Layers) : (steps : List TableStep) → Decidable (StepsFit p L steps)
  | [] => inferInstanceAs (Decidable True)
  | .call c :: steps =>
    have := decidableStepsFit (c.step L) steps
    inferInstanceAs (Decidable (_ ∧ _))
  | .reopen :: steps => decidableStepsFit L.reopen steps

/-- **Run.** -/
theorem answers_runSteps (hp : p.Lawful) (steps : List TableStep) {m : ByteMap} (h : Table.Holds p L m s d)
    (hfits : StepsFit p L steps) : Answers (runSteps p dir steps) s d fun r _ _ => r = m.answers steps := by
  induction steps generalizing s d L m with
  | nil => exact .pure rfl
  | cons step steps ih =>
    cases step with
    | call c =>
      refine (c.answers hp h hfits.1).bind fun r s' d' hr => ?_
      obtain ⟨rfl, h'⟩ := hr
      refine (ih h' hfits.2).bind fun rest s'' d'' hrest => ?_
      exact .pure (by rw [hrest]; rfl)
    | reopen =>
      have hopen : Returns (Op.reopen.run p dir) s d fun _ s' d' => Agrees p s' d' L.reopen [] [] :=
        returns_op hp h.1 (show Op.Fits p L .reopen from trivial)
      exact (Answers.core hopen).bind fun _ s' d' h' => ih ⟨h', h.2⟩ hfits

/-- **A table is a sorted map.** From an empty directory on, every run of calls that fit, with reopenings
in between, replies call by call what the sorted map of its puts and deletes does. -/
theorem table_is_sorted_map (hp : p.Lawful) (dir : String) (steps : List TableStep)
    (hfits : StepsFit p Layers.empty steps) (s : Store) :
    Answers (runTable p dir steps) s Disk.empty fun r _ _ => r = ByteMap.answers ∅ steps := by
  have hopen : Returns (Store.openWithDir p dir) s Disk.empty fun _ s' d' => Agrees p s' d' Layers.empty [] [] :=
    does_openWithDir hp stored_empty rfl fun _ _ h' => h'
  refine (Answers.core hopen).bind fun _ s' d' h' => answers_runSteps hp steps ⟨h', ?_⟩ hfits
  rw [get_empty, read_empty]

/-- Batches with a repeated key, transactions, reopenings and all kinds of scans. -/
def sampleSteps : List TableStep :=
  [.call (.putBatch [([1], [7]), ([2, 255], []), ([1], [8])]), .call (.get [1]), .reopen,
    .call (.txnGet [([1], none)] [1]), .call (.commit [([1], none), ([2], some [3])]), .call (.contains [1]),
    .call (.getBatch [[2], [1], [2]]), .reopen, .call (.scanPrefix [2]), .call (.range [2] [2, 255]),
    .call (.delete [2]), .call (.rollback [([9], some [9])]), .call .scan]

theorem table_is_sorted_map_sampleSteps : StepsFit Prost.wire Layers.empty sampleSteps ∧
    Answers (runTable Prost.wire "db" sampleSteps) (Store.fresh "db" ⟨walName, false⟩) Disk.empty
      fun r _ _ => r = ByteMap.answers ∅ sampleSteps :=
  have hfits : StepsFit Prost.wire Layers.empty sampleSteps := by decide +kernel
  ⟨hfits, table_is_sorted_map wire_lawful "db" sampleSteps hfits _⟩

example : ByteMap.answers ∅ sampleSteps = [.done, .value (some [8]), .value none, .done, .present false,
    .values [some [3], none, some [3]], .pairs [([2], [3]), ([2, 255], [])], .pairs [([2], [3])], .done, .done,
    .pairs [([2, 255], [])]] := by decide +kernel

end FerrumDB
