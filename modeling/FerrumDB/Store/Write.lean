import FerrumDB.Store.Flush

/-!
# Writes

A write, single or transactional, is a batch (`Store.writeBatch`): its entries and one COMMIT go to
the log, then the memtable is updated, then the budget is checked. `does_logBatch` says what the log
holds after the first phase, and what a cut leaves of it (`LogCut`); `does_applyBatch` is the second.
`does_writeBatch` is the whole write, on a log without remains of earlier ones.
-/

namespace FerrumDB

open FramedLog

variable {env : Env} {s : Store} {d : Disk} {p : Prost}

/-- The common course of all writes. -/
def Store.writeBatch (p : Prost) (b : Batch) : Prog Store Unit := do
  forM b fun e => Store.logEntry p (pendingEntry e.1 e.2)
  Store.logCommit p
  forM b fun e => Store.insert e.1 (entryOf e.2)
  Store.maybeFlush p

/-- A write up to the budget check: log the batch, then apply it to the memtable. -/
def Store.recordBatch (p : Prost) (b : Batch) : Prog Store Unit := do
  forM b fun e => Store.logEntry p (pendingEntry e.1 e.2)
  Store.logCommit p
  forM b fun e => Store.insert e.1 (entryOf e.2)

theorem writeBatch_eq (b : Batch) : Store.writeBatch p b = (do
    Store.recordBatch p b
    Store.maybeFlush p) := by
  unfold Store.writeBatch Store.recordBatch
  rw [bind_assoc]
  congr 1
  funext _
  rw [bind_assoc]

theorem setValue_eq (key : Bytes) (value : Value) : Store.setValue p key value = (do
    Store.writeBatch p [(key, some value)]
    return "Inserted value") := by
  simp [Store.setValue, Store.writeBatch, pendingEntry, entryOf]

theorem deleteValue_eq (key : Bytes) : Store.deleteValue p key = (do
    Store.writeBatch p [(key, none)]
    return "Deleted value") := by
  simp [Store.deleteValue, Store.writeBatch, pendingEntry, entryOf]

theorem commit_eq (tx : Transaction) : Transaction.commit p tx =
    if tx.pending.isEmpty then pure () else Store.writeBatch p tx.pending.toList := rfl

/-! ## The log -/

/-- Why a batch of log entries was cut, with `u` of it appended to a log of `len` bytes: inside the
frame of an entry, or after all of them at the fsync. -/
inductive LogCut (env : Env) (p : Prost) (len : ℕ) (es : List WalEntry) (e : Stop) (u : Bytes) : Prop
  | frame (es₁ es₂ : List WalEntry) (x : WalEntry) (pre : Bytes) (split : es = es₁ ++ x :: es₂)
      (written : u = logBytes p es₁ ++ pre)
      (cut : Cut env walName (len + (logBytes p es₁).length) (frame p x) e pre)
  | sync (written : u = logBytes p es) (fault : env.Faults (· = ⟨.sync, walName⟩) e)

/-- With room for the whole batch, only a fault can cut it. -/
theorem LogCut.fault {len : ℕ} {es : List WalEntry} {e : Stop} {u : Bytes} (h : LogCut env p len es e u)
    (hroom : len + (logBytes p es).length ≤ maxFileLen) : env.Faults (onPath walName) e := by
  cases h with
  | sync _ he => exact he.mono fun c hc => by rw [hc]; rfl
  | frame es₁ es₂ x pre hsplit _ hcut =>
    rcases hcut.cause with ⟨he, -⟩ | ⟨n, f, hf, he, -⟩ | ⟨hbig, -⟩
    · exact he.mono fun c hc => by rw [hc]; rfl
    · exact ⟨n, ⟨.write, walName⟩, f, rfl, hf, he⟩
    · rw [hsplit, logBytes_append, logBytes_cons, List.length_append, List.length_append] at hroom
      omega

/-- A cut leaves a byte prefix of the batch. -/
theorem LogCut.isPrefix {len : ℕ} {es : List WalEntry} {e : Stop} {u : Bytes} (h : LogCut env p len es e u) :
    u <+: logBytes p es := by
  cases h with
  | sync hu _ => exact hu ▸ List.prefix_rfl
  | frame es₁ es₂ x pre hsplit hu hcut =>
    rw [hsplit, hu, logBytes_append, logBytes_cons]
    exact List.prefix_append_right_inj _ |>.2 (hcut.isPrefix.trans (List.prefix_append _ _))

theorem toNat_succ {n : UInt64} (h : n.toNat + 1 < 2 ^ 64) : (n + 1).toNat = n.toNat + 1 := by
  rw [UInt64.toNat_add]
  exact Nat.mod_eq_of_lt h

theorem toNat_batchEnd (b : Batch) {n : UInt64} (h : n.toNat + b.length < 2 ^ 64) :
    (batchEnd n b).toNat = n.toNat + b.length := by
  induction b generalizing n with
  | nil => rfl
  | cons e b ih =>
    rw [List.length_cons] at h ⊢
    have hsucc := toNat_succ (n := n) (by omega)
    rw [batchEnd, ih (by omega), hsucc]
    omega

theorem does_logEntry (hlog : s.OnLog d) (entry : UInt64 → WalEntry) {Q : Unit → Store → Disk → Prop}
    {E : Stop → Store → Disk → Prop}
    (hQ : s.sequence.toNat + 1 < 2 ^ 64 → ∀ w' d', w'.filePath = walName → w'.Live d' →
      d.Becomes walName (d.bytesOf walName ++ frame p (entry (s.sequence + 1))) (d.syncedOf walName) d' →
      Q () { s with sequence := s.sequence + 1, wal := w' } d')
    (hE : ∀ e w' d' pre, w'.filePath = walName → w'.Live d' →
      d.Becomes walName (d.bytesOf walName ++ pre) (d.syncedOf walName) d' →
      Cut env walName (d.bytesOf walName).length (frame p (entry (s.sequence + 1))) e pre →
      E e { s with sequence := s.sequence + 1, wal := w' } d')
    (hseq : s.sequence.toNat + 1 < 2 ^ 64 ∨ E .panic s d) :
    Does env (Store.logEntry p entry) s d Q E := by
  have hpath := hlog.path
  unfold Store.logEntry
  refine .withSelf ?_
  by_cases hlt : s.sequence.toNat + 1 < 2 ^ 64
  · rw [if_pos hlt]
    refine Does.bind (.setSelf (Does.onField (does_append hlog.live _ ?_ ?_)))
    · intro w' d' hw' hlive hb
      rw [hpath] at hw' hb
      exact hQ hlt w' d' hw' hlive hb
    · intro e w' d' pre hw' hlive hb hcut
      rw [hpath] at hw' hb hcut
      exact hE e w' d' pre hw' hlive hb hcut
  · rw [if_neg hlt]
    exact .throw (hseq.resolve_left hlt)

/-- **The entries of a batch** are appended in order. -/
theorem does_logEntries (b : Batch) (hlog : s.OnLog d) {Q : Unit → Store → Disk → Prop}
    {E : Stop → Store → Disk → Prop}
    (hQ : s.sequence.toNat + b.length < 2 ^ 64 → ∀ w' d', w'.filePath = walName → w'.Live d' →
      d.Becomes walName (d.bytesOf walName ++ logBytes p (batchLog s.sequence b))
        (d.syncedOf walName) d' →
      Q () { s with sequence := batchEnd s.sequence b, wal := w' } d')
    (hE : ∀ e w' d' n es₁ es₂ x pre, w'.filePath = walName → w'.Live d' →
      batchLog s.sequence b = es₁ ++ x :: es₂ →
      d.Becomes walName (d.bytesOf walName ++ (logBytes p es₁ ++ pre)) (d.syncedOf walName) d' →
      Cut env walName ((d.bytesOf walName).length + (logBytes p es₁).length) (frame p x) e pre →
      E e { s with sequence := n, wal := w' } d')
    (hseq : s.sequence.toNat + b.length < 2 ^ 64 ∨ ∀ s' d', E .panic s' d') :
    Does env (forM b fun e => Store.logEntry p (pendingEntry e.1 e.2)) s d Q E := by
  induction b generalizing s d with
  | nil =>
    refine .pure ?_
    have := hQ s.sequence.toNat_lt s.wal d hlog.path hlog.live
    rw [batchLog, logBytes_nil, List.append_nil] at this
    exact this (d.becomes_self walName)
  | cons y b ih =>
    rw [List.forM_cons]
    refine Does.bind (does_logEntry hlog _ (fun hlt w' d' hw' hlive hb => ?_)
      (fun e w' d' pre hw' hlive hb hcut => ?_) ?_)
    · have hsucc := toNat_succ hlt
      refine ih (s := { s with sequence := s.sequence + 1, wal := w' }) ⟨hw', hlive⟩
        (fun hfit w'' d'' hw'' hlive' hb' => ?_)
        (fun e w'' d'' n es₁ es₂ x pre hw'' hlive' hes hb' hcut => ?_) ?_
      · rw [hb.bytes, hb.synced, List.append_assoc] at hb'
        have hfit : (s.sequence + 1).toNat + b.length < 2 ^ 64 := hfit
        refine hQ ?_ w'' d'' hw'' hlive' (hb.trans hb')
        rw [List.length_cons]
        omega
      · rw [hb.bytes, hb.synced, List.append_assoc] at hb'
        rw [hb.bytes, List.length_append] at hcut
        refine hE e w'' d'' n (_ :: es₁) es₂ x pre hw'' hlive'
          (by rw [List.cons_append, batchLog, hes]) ?_ ?_
        · rw [logBytes_cons, List.append_assoc]
          exact hb.trans hb'
        · rw [logBytes_cons, List.length_append, ← Nat.add_assoc]
          exact hcut
      · refine hseq.imp (fun hlt => ?_) id
        rw [List.length_cons] at hlt
        show (s.sequence + 1).toNat + b.length < 2 ^ 64
        omega
    · exact hE e w' d' _ [] (batchLog (s.sequence + 1) b) _ pre hw' hlive rfl (by simpa using hb)
        (by simpa using hcut)
    · refine hseq.imp (fun hlt => ?_) fun h => h _ _
      rw [List.length_cons] at hlt
      omega

/-- **A logged batch** is in the log with its COMMIT, and all of the log is fsynced; a cut leaves a
part of it. -/
theorem does_logBatch (b : Batch) (hlog : s.OnLog d) {Q : Unit → Store → Disk → Prop}
    {E : Stop → Store → Disk → Prop}
    (hQ : s.sequence.toNat + b.length < 2 ^ 64 → ∀ w' d' bs, w'.filePath = walName → w'.Live d' →
      bs = d.bytesOf walName ++
        logBytes p (batchLog s.sequence b ++ [commitEntry (batchEnd s.sequence b)]) →
      d.Becomes walName bs bs.length d' →
      Q () { s with sequence := batchEnd s.sequence b, wal := w' } d')
    (hE : ∀ e w' d' n u, w'.filePath = walName → w'.Live d' →
      d.Becomes walName (d.bytesOf walName ++ u) (d.syncedOf walName) d' →
      LogCut env p (d.bytesOf walName).length
        (batchLog s.sequence b ++ [commitEntry (batchEnd s.sequence b)]) e u →
      E e { s with sequence := n, wal := w' } d')
    (hseq : s.sequence.toNat + b.length < 2 ^ 64 ∨ ∀ s' d', E .panic s' d') :
    Does env (do
      forM b fun e => Store.logEntry p (pendingEntry e.1 e.2)
      Store.logCommit p) s d Q E := by
  refine Does.bind (does_logEntries b hlog (fun hfit w' d' hw' hlive hb => ?_)
    (fun e w' d' n es₁ es₂ x pre hw' hlive hes hb hcut => ?_) hseq)
  · refine .withSelf (Does.onField ?_)
    have hpath : (Store.wal { s with sequence := batchEnd s.sequence b, wal := w' }).filePath =
        walName := hw'
    refine does_writeCommit hlive _ (fun w'' d'' bs hw'' hlive' hbs hb' => ?_)
      (fun e w'' d'' pre hw'' hlive' hb' hcut => ?_) fun e w'' d'' hw'' hlive' hb' hf => ?_
    · rw [hpath] at hw'' hbs hb'
      rw [hb.bytes, List.append_assoc, ← logBytes_singleton, ← logBytes_append] at hbs
      exact hQ hfit w'' d'' bs hw'' hlive' hbs (hb.trans hb')
    · rw [hpath] at hw'' hb' hcut
      rw [hb.bytes, List.length_append] at hcut
      rw [hb.bytes, hb.synced, List.append_assoc] at hb'
      exact hE e w'' d'' _ _ hw'' hlive' (hb.trans hb') (.frame _ [] _ pre rfl rfl hcut)
    · rw [hpath] at hw'' hb' hf
      rw [hb.bytes, hb.synced, List.append_assoc, ← logBytes_singleton, ← logBytes_append] at hb'
      exact hE e w'' d'' _ _ hw'' hlive' (hb.trans hb') (.sync rfl hf)
  · exact hE e w' d' n _ hw' hlive hb
      (.frame es₁ (es₂ ++ [commitEntry (batchEnd s.sequence b)]) x pre (by rw [hes]; simp) rfl hcut)

/-! ## The memtable -/

theorem does_insert (h : s.Counted) (key : Bytes) (entry : Entry) {Q : Unit → Store → Disk → Prop}
    {E : Stop → Store → Disk → Prop} (hQ : Q () (s.holding (s.data.insert key entry) s.sequence) d) :
    Does env (Store.insert key entry) s d Q E := by
  unfold Store.insert
  refine .withSelf (Does.bind (.ofStop (fun r hr => ?_) fun e he => ?_))
  · rw [memtableInsert_eq h] at hr
    cases hr
    exact .setSelf hQ
  · rw [memtableInsert_eq h] at he; cases he

/-- **Applying a batch** never fails. -/
theorem does_applyBatch (b : Batch) (h : s.Counted) {Q : Unit → Store → Disk → Prop}
    {E : Stop → Store → Disk → Prop} (hQ : Q () (s.holding (applyBatch s.data b) s.sequence) d) :
    Does env (forM b fun e => Store.insert e.1 (entryOf e.2)) s d Q E := by
  induction b generalizing s with
  | nil =>
    refine .pure ?_
    unfold Store.Counted at h
    simpa only [applyBatch, List.foldl_nil, Store.holding, ← h] using hQ
  | cons e b ih =>
    rw [List.forM_cons]
    exact Does.bind (does_insert h _ _ (ih (counted_holding _ _ _) hQ))

/-! ## The whole write -/

/-- **A batch is recorded**, for any memtable with an exact estimate: it is in the log and in the
memtable, or it is cut in the log. -/
theorem does_recordBatch (b : Batch) (hlog : s.OnLog d) (hcounted : s.Counted)
    {Q : Unit → Store → Disk → Prop} {E : Stop → Store → Disk → Prop}
    (hQ : s.sequence.toNat + b.length < 2 ^ 64 → ∀ w' d' bs, w'.filePath = walName → w'.Live d' →
      bs = d.bytesOf walName ++
        logBytes p (batchLog s.sequence b ++ [commitEntry (batchEnd s.sequence b)]) →
      d.Becomes walName bs bs.length d' →
      Q () (Store.holding { s with sequence := batchEnd s.sequence b, wal := w' }
        (applyBatch s.data b) (batchEnd s.sequence b)) d')
    (hcut : ∀ e w' d' n u, w'.filePath = walName → w'.Live d' →
      d.Becomes walName (d.bytesOf walName ++ u) (d.syncedOf walName) d' →
      LogCut env p (d.bytesOf walName).length
        (batchLog s.sequence b ++ [commitEntry (batchEnd s.sequence b)]) e u →
      E e { s with sequence := n, wal := w' } d')
    (hseq : s.sequence.toNat + b.length < 2 ^ 64 ∨ ∀ s' d', E .panic s' d') :
    Does env (Store.recordBatch p b) s d Q E := by
  have hassoc : Store.recordBatch p b = ((do
      forM b fun e => Store.logEntry p (pendingEntry e.1 e.2)
      Store.logCommit p) >>= fun _ => forM b fun e => Store.insert e.1 (entryOf e.2)) := by
    unfold Store.recordBatch
    rw [bind_assoc]
  rw [hassoc]
  refine Does.bind (does_logBatch b hlog (fun hfit w' d' bs hw' hlive hbs hb => ?_) hcut hseq)
  exact does_applyBatch (s := { s with sequence := batchEnd s.sequence b, wal := w' }) b
    hcounted (hQ hfit w' d' bs hw' hlive hbs hb)

/-- **The course of a write**: its batch is recorded when the budget is checked, or it is cut in the
log. -/
theorem does_writeBatch_log (b : Batch) (hlog : s.OnLog d) (hcounted : s.Counted)
    {Q : Unit → Store → Disk → Prop} {E : Stop → Store → Disk → Prop}
    (hflush : s.sequence.toNat + b.length < 2 ^ 64 → ∀ w' d' bs, w'.filePath = walName → w'.Live d' →
      bs = d.bytesOf walName ++
        logBytes p (batchLog s.sequence b ++ [commitEntry (batchEnd s.sequence b)]) →
      d.Becomes walName bs bs.length d' →
      Does env (Store.maybeFlush p) (Store.holding { s with sequence := batchEnd s.sequence b, wal := w' }
        (applyBatch s.data b) (batchEnd s.sequence b)) d' Q E)
    (hcut : ∀ e w' d' n u, w'.filePath = walName → w'.Live d' →
      d.Becomes walName (d.bytesOf walName ++ u) (d.syncedOf walName) d' →
      LogCut env p (d.bytesOf walName).length
        (batchLog s.sequence b ++ [commitEntry (batchEnd s.sequence b)]) e u →
      E e { s with sequence := n, wal := w' } d')
    (hseq : s.sequence.toNat + b.length < 2 ^ 64 ∨ ∀ s' d', E .panic s' d') :
    Does env (Store.writeBatch p b) s d Q E := by
  rw [writeBatch_eq]
  exact Does.bind (does_recordBatch b hlog hcounted hflush hcut hseq)

/-- A write was cut in the log: the memtable is untouched, `u` is at the end of the log. -/
structure WriteCut (p : Prost) (s : Store) (d d' : Disk) (L : Layers) (u : Bytes) : Prop where
  follows : Follows p s d' { L with sequence := s.sequence }
  log : d.Becomes walName (d.bytesOf walName ++ u) (d.syncedOf walName) d'

variable {L : Layers}

/-- The log of the layers after a write. -/
theorem bytes_write (h : d.bytesOf walName = logBytes p L.log) (b : Batch) :
    d.bytesOf walName ++ logBytes p (batchLog L.sequence b ++ [commitEntry (batchEnd L.sequence b)]) =
      logBytes p ((L.write b).log ++ []) ++ [] := by
  rw [h, ← logBytes_append, List.append_nil, List.append_nil]
  rfl

/-- The memory of a store after a write. -/
theorem Implements.write (h : Implements p s L) (b : Batch) (wal : Wal) :
    Implements p (Store.holding { s with sequence := batchEnd s.sequence b, wal }
      (applyBatch s.data b) (batchEnd s.sequence b)) (L.write b) where
  data := by show applyBatch s.data b = applyBatch L.data b; rw [h.data]
  counted := counted_holding _ _ _
  budget := h.budget
  sequence := by show batchEnd s.sequence b = batchEnd L.sequence b; rw [h.sequence]
  nextId := h.nextId
  handles := h.handles
  below := h.below
  nextId_lt := h.nextId_lt

/-- A clean log after a write. -/
theorem LogStored.write {d' : Disk} (h : LogStored p d L.log L.data [] []) (b : Batch) {bs : Bytes}
    (hbs : bs = d.bytesOf walName ++
      logBytes p (batchLog L.sequence b ++ [commitEntry (batchEnd L.sequence b)]))
    (hb : d.Becomes walName bs bs.length d') :
    LogStored p d' (L.write b).log (L.write b).data [] [] := by
  have hbytes : d.bytesOf walName = logBytes p L.log := by
    rw [h.bytes, List.append_nil, List.append_nil]
  rw [bytes_write hbytes] at hbs
  rw [hbs] at hb
  exact {
    bytes := hb.bytes
    synced := by rw [hb.synced, List.append_nil, List.append_nil]
    closed := closed_write _ _ _
    unmarked := fun e he => by cases he
    torn := torn_nil _ _
    replays := h.replays.write h.closed (logs_batchLog _ b) _ }

/-- **A write.** Its batch is in the log and in the layers when the budget is checked, or it is cut
in the log. -/
theorem does_writeBatch (h : Follows p s d L) {b : Batch}
    (hseq : L.sequence.toNat + b.length < 2 ^ 64) {Q : Unit → Store → Disk → Prop}
    {E : Stop → Store → Disk → Prop}
    (hflush : ∀ s' d' bs, Follows p s' d' (L.write b) →
      bs = d.bytesOf walName ++
        logBytes p (batchLog L.sequence b ++ [commitEntry (batchEnd L.sequence b)]) →
      d.Becomes walName bs bs.length d' → Does env (Store.maybeFlush p) s' d' Q E)
    (hcut : ∀ e s' d' u, WriteCut p s' d d' L u → LogCut env p (d.bytesOf walName).length
      (batchLog L.sequence b ++ [commitEntry (batchEnd L.sequence b)]) e u → E e s' d') :
    Does env (Store.writeBatch p b) s d Q E := by
  have hs := h.sequence
  refine does_writeBatch_log b h.toOnLog h.counted (fun _ w' d' bs hw' hlive hbs hb => ?_)
    (fun e w' d' n u hw' hlive hb hc => ?_) (Or.inl (by rw [hs]; exact hseq))
  · rw [hs] at hbs
    refine hflush _ d' bs ?_ hbs hb
    exact { h.toTablesStored.frame hb.others, h.toImplements.write b w' with
      path := hw', live := hlive, locked := hb.locked.trans h.locked }
  · rw [hs] at hc
    refine hcut e _ d' u ⟨?_, hb⟩ hc
    exact { h.toTablesStored.frame hb.others, h.toImplements with
      sequence := rfl, path := hw', live := hlive, locked := hb.locked.trans h.locked }

/-- **A write on a clean log**, when only calls on the log may fault. It runs through, or it is cut in
the log, or in the flush it triggers. -/
theorem does_writeBatch_clean (hp : p.Lawful) (h : Agrees p s d L [] []) {b : Batch}
    (hseq : L.sequence.toNat + b.length < 2 ^ 64)
    (hfits : (L.write b).bytes ≥ (L.write b).budget → (L.write b).FlushFits p)
    (henv : env.Spares offLog) {Q : Unit → Store → Disk → Prop} {E : Stop → Store → Disk → Prop}
    (hQ : ∀ s' d', Agrees p s' d' (L.commit b) [] [] → Q () s' d')
    (hcut : ∀ e s' d' u, WriteCut p s' d d' L u → LogCut env p (d.bytesOf walName).length
      (batchLog L.sequence b ++ [commitEntry (batchEnd L.sequence b)]) e u → E e s' d')
    (hclear : ∀ e s' d' d'', env.Faults clearCalls e →
      LogStored p d' (L.write b).log (L.write b).data [] [] → ClearCut p s' d' d'' (L.write b) →
      E e s' d'') :
    Does env (Store.writeBatch p b) s d Q E := by
  refine does_writeBatch h.toFollows hseq (fun s' d' bs h' hbs hb => ?_) hcut
  have hlogged := h.toLogStored.write b hbs hb
  refine does_maybeFlush hp h' hfits henv (fun _ hsame => ?_) (fun s'' d'' _ h'' => hQ s'' d'' h'')
    fun e s'' d'' he hc => hclear e s'' d' d'' he hlogged hc
  have hQ := hQ s' d'
  rw [Layers.commit, hsame] at hQ
  exact hQ { h', hlogged with }

end FerrumDB
