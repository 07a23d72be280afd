import FerrumDB.Wal.Framing
import FerrumDB.Calls

/-!
# Rules for the log

What appending, committing, clearing and recovering do to the log file, in every environment. The
disk after a call is described by `Disk.Becomes`: one file holds new bytes, everything else is
unchanged. A failed or interrupted append leaves a prefix of its frame behind (`Cut`).
-/

namespace FerrumDB

open FramedLog

variable {env : Env} {d d' d'' : Disk} {p : Prost} {name : FileName}

/-! ## One file of the disk -/

def Disk.syncedOf (d : Disk) (name : FileName) : ℕ := (d.files[name]?.map File.synced).getD 0

/-- `d'` is `d` with the file `name` holding `bytes`, the first `synced` of them fsynced. -/
structure Disk.Becomes (d : Disk) (name : FileName) (bytes : Bytes) (synced : ℕ) (d' : Disk) :
    Prop where
  others : ∀ n ≠ name, d'.files[n]? = d.files[n]?
  locked : d'.locked = d.locked
  bytes : d'.bytesOf name = bytes
  synced : d'.syncedOf name = synced

theorem Disk.becomes_self (d : Disk) (name : FileName) :
    d.Becomes name (d.bytesOf name) (d.syncedOf name) d := ⟨fun _ _ => rfl, rfl, rfl, rfl⟩

theorem Disk.Becomes.trans {bs bs' : Bytes} {n n' : ℕ} (h : d.Becomes name bs n d')
    (h' : d'.Becomes name bs' n' d'') : d.Becomes name bs' n' d'' :=
  ⟨fun m hm => (h'.others m hm).trans (h.others m hm), h'.locked.trans h.locked, h'.bytes, h'.synced⟩

theorem Disk.becomes_put (d : Disk) (name : FileName) (f : File) :
    d.Becomes name f.bytes f.synced (d.put name f) := by
  refine ⟨fun n hn => ?_, rfl, ?_, ?_⟩
  · rw [Disk.files_put, if_neg (Ne.symm hn)]
  · simp [Disk.bytesOf]
  · simp [Disk.syncedOf]

theorem Disk.syncedOf_of_some {f : File} (h : d.files[name]? = some f) : d.syncedOf name = f.synced := by
  unfold Disk.syncedOf; rw [h]; rfl

theorem Disk.bytesOf_length_le (d : Disk) (name : FileName) :
    (d.bytesOf name).length ≤ maxFileLen := by
  unfold Disk.bytesOf
  cases h : d.files[name]? with
  | none => simp
  | some f => exact f.length_le

theorem Disk.syncedOf_le (d : Disk) (name : FileName) : d.syncedOf name ≤ (d.bytesOf name).length := by
  unfold Disk.syncedOf Disk.bytesOf
  cases h : d.files[name]? with
  | none => exact Nat.le_refl 0
  | some f => exact f.synced_le

/-! ## Appending -/

/-- An open handle is one of an existing file. -/
def Wal.Live (w : Wal) (d : Disk) : Prop := w.file = true → ∃ f, d.files[w.filePath]? = some f

/-- Why a write of `bs` at the end of the file `name` of length `len` was cut, with `pre` of it in
the file. -/
structure Cut (env : Env) (name : FileName) (len : ℕ) (bs : Bytes) (e : Stop) (pre : Bytes) :
    Prop where
  isPrefix : pre <+: bs
  proper : e ≠ .crash → pre.length < bs.length
  cause : (env.Faults (· = ⟨.openAppend, name⟩) e ∧ pre = []) ∨
    (∃ n f, env n ⟨.write, name⟩ = some f ∧ f.stop = e ∧ pre.length ≤ f.written) ∨
    (maxFileLen < len + bs.length ∧ e = .err (.ioError fileTooLarge))

theorem does_writer {w : Wal} (hw : w.Live d) {Q : Unit → Wal → Disk → Prop}
    {E : Stop → Wal → Disk → Prop}
    (hQ : ∀ d' f, d.Becomes w.filePath (d.bytesOf w.filePath) (d.syncedOf w.filePath) d' →
      d'.files[w.filePath]? = some f → Q () ⟨w.filePath, true⟩ d')
    (hE : ∀ e, env.Faults (· = ⟨.openAppend, w.filePath⟩) e → E e w d) :
    Does env Wal.writer w d Q E := by
  unfold Wal.writer
  refine .withSelf ?_
  by_cases hf : w.file = true
  · rw [if_pos hf]
    obtain ⟨f, hfile⟩ := hw hf
    have hself : w = ⟨w.filePath, true⟩ := by rw [← hf]
    refine .pure ?_
    have := hQ d f (d.becomes_self _) hfile
    rwa [← hself] at this
  · rw [if_neg hf]
    refine Does.bind (does_openAppend (fun f hfile => ?_) (fun hnone => ?_) hE)
    · exact .setSelf (hQ d f (d.becomes_self _) hfile)
    · refine .setSelf (hQ _ File.empty ?_ (by simp))
      have hb : d.bytesOf w.filePath = [] := by unfold Disk.bytesOf; rw [hnone]; rfl
      have hs : d.syncedOf w.filePath = 0 := by unfold Disk.syncedOf; rw [hnone]; rfl
      rw [hb, hs]
      exact d.becomes_put w.filePath File.empty

/-- What a disk becomes when `pre` is appended to an existing file. -/
theorem Disk.becomes_append {f : File} (bs : Bytes) (h : d.files[name]? = some f) :
    d.Becomes name (d.bytesOf name ++ bs.take (maxFileLen - (d.bytesOf name).length))
      (d.syncedOf name) (d.append name bs) := by
  rw [Disk.append_of_some h, Disk.bytesOf_of_some h, Disk.syncedOf_of_some h]
  exact d.becomes_put name (f.append bs)

/-- The handle of an appended file stays live. -/
theorem Wal.live_append {f : File} (bs : Bytes) (h : d.files[name]? = some f) (b : Bool) :
    Wal.Live ⟨name, b⟩ (d.append name bs) := by
  intro _
  rw [Disk.append_of_some h]
  exact ⟨f.append bs, by simp⟩

/-- Writing `bs` at the end of the log: all of it, or a cut. -/
theorem does_appendBytes {σ : Type} {a : σ} {f : File} {bs : Bytes} (hbs : bs ≠ [])
    (hf : d.files[name]? = some f) {Q : Unit → σ → Disk → Prop} {E : Stop → σ → Disk → Prop}
    (hQ : (d.bytesOf name).length + bs.length ≤ maxFileLen →
      d.Becomes name (d.bytesOf name ++ bs) (d.syncedOf name) (d.append name bs) →
      Q () a (d.append name bs))
    (hE : ∀ e pre bs', d.Becomes name (d.bytesOf name ++ pre) (d.syncedOf name) (d.append name bs') →
      Cut env name (d.bytesOf name).length bs e pre → E e a (d.append name bs')) :
    Does env (writeAll name bs) a d Q E := by
  have hpos := List.length_pos_iff.2 hbs
  have hlen := Disk.bytesOf_of_some hf
  refine does_writeAll hf (fun hle => ?_) (fun hbig => ?_) fun n ft hft => ?_
  · have hb := Disk.becomes_append bs hf
    rw [hlen, List.take_of_length_le (by omega), ← hlen] at hb
    exact hQ (by rw [hlen]; exact hle) hb
  · refine hE _ (bs.take (maxFileLen - (d.bytesOf name).length)) bs (Disk.becomes_append _ hf)
      ⟨List.take_prefix _ _, fun _ => ?_, Or.inr (Or.inr ⟨by rw [hlen]; omega, rfl⟩)⟩
    rw [List.length_take, hlen]; have := f.length_le; omega
  · cases ft with
    | error msg m =>
      refine hE _ ((bs.dropLast.take m).take (maxFileLen - (d.bytesOf name).length)) _
        (Disk.becomes_append _ hf) ⟨?_, fun _ => ?_, Or.inr (Or.inl ⟨n, _, hft, rfl, ?_⟩)⟩
      · exact (List.take_prefix _ _).trans ((List.take_prefix _ _).trans (List.dropLast_prefix _))
      · simp only [List.length_take, List.length_dropLast]; omega
      · simp only [List.length_take, Fault.written]; omega
    | crash m =>
      refine hE _ ((bs.take m).take (maxFileLen - (d.bytesOf name).length)) _
        (Disk.becomes_append _ hf) ⟨?_, fun h => absurd rfl h, Or.inr (Or.inl ⟨n, _, hft, rfl, ?_⟩)⟩
      · exact (List.take_prefix _ _).trans (List.take_prefix _ _)
      · simp only [List.length_take, Fault.written]; omega

theorem frame_ne_nil (e : WalEntry) : frame p e ≠ [] := by
  rw [← List.length_pos_iff, length_frame]; omega

/-- **Append.** One frame is added to the log, or a part of it. -/
theorem does_append {w : Wal} (hw : w.Live d) (entry : WalEntry) {Q : Unit → Wal → Disk → Prop}
    {E : Stop → Wal → Disk → Prop}
    (hQ : ∀ w' d', w'.filePath = w.filePath → w'.Live d' →
      d.Becomes w.filePath (d.bytesOf w.filePath ++ frame p entry) (d.syncedOf w.filePath) d' →
      Q () w' d')
    (hE : ∀ e w' d' pre, w'.filePath = w.filePath → w'.Live d' →
      d.Becomes w.filePath (d.bytesOf w.filePath ++ pre) (d.syncedOf w.filePath) d' →
      Cut env w.filePath (d.bytesOf w.filePath).length (frame p entry) e pre → E e w' d') :
    Does env (Wal.append p entry) w d Q E := by
  have hpos := List.length_pos_iff.2 (frame_ne_nil (p := p) entry)
  unfold Wal.append
  refine Does.bind (does_writer hw (fun d' f hd' hf => ?_) fun e he => ?_)
  · refine .withSelf ?_
    refine does_appendBytes (frame_ne_nil entry) hf (fun _ hb => ?_) fun e pre bs' hb hcut => ?_
    · rw [hd'.bytes, hd'.synced] at hb
      exact hQ _ _ rfl (Wal.live_append _ hf true) (hd'.trans hb)
    · rw [hd'.bytes, hd'.synced] at hb
      rw [hd'.bytes] at hcut
      exact hE e _ _ pre rfl (Wal.live_append _ hf true) (hd'.trans hb) hcut
  · refine hE e w d [] rfl hw ?_ ⟨List.nil_prefix, fun _ => hpos, Or.inl ⟨he, rfl⟩⟩
    rw [List.append_nil]
    exact d.becomes_self _

/-- **Commit.** The COMMIT frame is added and the log is fsynced; on a stop the log holds a part of
the frame, or all of it with the fsync missing. -/
theorem does_writeCommit {w : Wal} (hw : w.Live d) (sequence : UInt64)
    {Q : Unit → Wal → Disk → Prop} {E : Stop → Wal → Disk → Prop}
    (hQ : ∀ w' d' bs, w'.filePath = w.filePath → w'.Live d' →
      bs = d.bytesOf w.filePath ++ frame p (commitEntry sequence) →
      d.Becomes w.filePath bs bs.length d' → Q () w' d')
    (hE : ∀ e w' d' pre, w'.filePath = w.filePath → w'.Live d' →
      d.Becomes w.filePath (d.bytesOf w.filePath ++ pre) (d.syncedOf w.filePath) d' →
      Cut env w.filePath (d.bytesOf w.filePath).length (frame p (commitEntry sequence)) e pre →
        E e w' d')
    (hsync : ∀ e w' d', w'.filePath = w.filePath → w'.Live d' →
      d.Becomes w.filePath (d.bytesOf w.filePath ++ frame p (commitEntry sequence))
        (d.syncedOf w.filePath) d' →
      env.Faults (· = ⟨.sync, w.filePath⟩) e → E e w' d') :
    Does env (Wal.writeCommit p sequence) w d Q E := by
  have hpos := List.length_pos_iff.2 (frame_ne_nil (p := p) (commitEntry sequence))
  unfold Wal.writeCommit
  refine Does.bind (does_writer hw (fun d' f hd' hf => ?_) fun e he => ?_)
  · refine .withSelf ?_
    refine Does.bind (does_appendBytes (frame_ne_nil _) hf (fun _ hb => ?_)
      fun e pre bs' hb hcut => ?_)
    · rw [hd'.bytes, hd'.synced] at hb
      have hb := hd'.trans hb
      obtain ⟨f', hf'⟩ := Wal.live_append (frame p (commitEntry sequence)) hf true rfl
      have hbytes := hb.bytes
      rw [Disk.bytesOf_of_some hf'] at hbytes
      refine does_syncAll hf' ?_ fun e he => hsync e _ _ rfl (Wal.live_append _ hf true) hb he
      refine hQ _ _ f'.bytes rfl (fun _ => ⟨f'.sync, by simp⟩) hbytes (hb.trans ?_)
      exact Disk.becomes_put _ _ f'.sync
    · rw [hd'.bytes, hd'.synced] at hb
      rw [hd'.bytes] at hcut
      exact hE e _ _ pre rfl (Wal.live_append _ hf true) (hd'.trans hb) hcut
  · refine hE e w d [] rfl hw ?_ ⟨List.nil_prefix, fun _ => hpos, Or.inl ⟨he, rfl⟩⟩
    rw [List.append_nil]
    exact d.becomes_self _

/-! ## Clearing and recovering -/

/-- **Clear.** The log is emptied; a stop comes before or after. -/
theorem does_clear {w : Wal} {Q : Unit → Wal → Disk → Prop} {E : Stop → Wal → Disk → Prop}
    (hQ : ∀ d', d.Becomes w.filePath [] 0 d' → Q () ⟨w.filePath, false⟩ d')
    (hbefore : ∀ e, env.Faults (· = ⟨.openTruncate, w.filePath⟩) e → E e ⟨w.filePath, false⟩ d)
    (hafter : ∀ e d', env.Faults (· = ⟨.sync, w.filePath⟩) e → d.Becomes w.filePath [] 0 d' →
      E e ⟨w.filePath, false⟩ d') :
    Does env Wal.clear w d Q E := by
  have hempty := d.becomes_put w.filePath File.empty
  unfold Wal.clear
  refine Does.bind (.modifySelf (.withSelf ?_))
  refine Does.bind (does_openTruncate ?_ hbefore)
  refine does_syncAll (f := File.empty) (by simp) ?_ fun e he => hafter e _ he hempty
  exact hQ _ (hempty.trans (Disk.becomes_put _ _ File.empty.sync))

/-- **Recovery of any bytes.** The bytes after the last COMMIT are cut off, if there are any. A fault leaves
the file, or its cut before it is fsynced; if the look for the file fails, it counts as missing. -/
theorem does_readForRecovery_faults {w : Wal} {entries : List WalEntry} {committedCount committedEnd : ℕ}
    (hparse : parseBuffer p (d.bytesOf w.filePath) = .ok (entries, committedCount, committedEnd))
    {Q : List WalEntry → Wal → Disk → Prop} {E : Stop → Wal → Disk → Prop}
    (hsame : ¬ committedEnd < (d.bytesOf w.filePath).length → Q (entries.take committedCount) w d)
    (hcut : committedEnd < (d.bytesOf w.filePath).length → ∀ d',
      d.Becomes w.filePath ((d.bytesOf w.filePath).take committedEnd) committedEnd d' →
      Q (entries.take committedCount) ⟨w.filePath, false⟩ d')
    (hblind : ∀ e, env.Faults (· = ⟨.exists, w.filePath⟩) (.err e) → Q [] w d)
    (hE : ∀ e, env.Faults (onPath w.filePath) e → E e w d)
    (htorn : ∀ e d', env.Faults (onPath w.filePath) e → committedEnd < (d.bytesOf w.filePath).length →
      d.Becomes w.filePath ((d.bytesOf w.filePath).take committedEnd) (min (d.syncedOf w.filePath) committedEnd) d' →
      E e w d') :
    Does env (Wal.readForRecovery p) w d Q E := by
  have hcall : ∀ op e, env.Faults (· = ⟨op, w.filePath⟩) e → env.Faults (onPath w.filePath) e :=
    fun op e he => he.mono fun c hc => by rw [hc]; rfl
  unfold Wal.readForRecovery Wal.readFile
  refine Does.bind (.withSelf (Does.bind (does_pathExists ?_ fun e he => ?_)))
  · cases hfile : d.files[w.filePath]? with
    | none =>
      rw [if_neg (by simp)]
      have hnil : d.bytesOf w.filePath = [] := by unfold Disk.bytesOf; rw [hfile]; rfl
      have hempty : parseBuffer p [] = .ok ([], 0, 0) := rfl
      rw [hnil, hempty] at hparse
      cases hparse
      refine .pure (.pure (hsame ?_))
      rw [hnil]
      exact Nat.lt_irrefl 0
    | some f =>
      rw [if_pos (by simp)]
      have hf := Disk.bytesOf_of_some hfile
      have hs : d.syncedOf w.filePath = f.synced := by unfold Disk.syncedOf; rw [hfile]; rfl
      rw [hf] at hparse hsame hcut htorn
      rw [hs] at htorn
      refine Does.bind (does_openRead hfile ?_ fun e he => hE e (hcall _ e he))
      refine Does.bind (does_readToEnd hfile (.pure ?_) fun e he => hE e (hcall _ e he))
      dsimp only
      rw [hparse]
      refine Does.bind (.pure (.withSelf ?_))
      dsimp only
      by_cases hlt : committedEnd < f.bytes.length
      · rw [if_pos hlt]
        have hput := d.becomes_put w.filePath (f.truncate committedEnd)
        have hmin : (f.truncate committedEnd).synced = min f.synced committedEnd := rfl
        refine Does.bind (does_openWrite hfile ?_ fun e he => hE e (hcall _ e he))
        refine Does.bind (does_setLen hfile ?_ fun e he => hE e (hcall _ e he))
        refine Does.bind (does_syncAll (f := f.truncate committedEnd) (by simp) ?_
          fun e he => htorn e _ (hcall _ e he) hlt (by rwa [hmin] at hput))
        refine Does.bind (.setSelf (.pure (hcut hlt _ ?_)))
        have hsync := hput.trans (Disk.becomes_put _ _ (f.truncate committedEnd).sync)
        have hlen : (f.truncate committedEnd).sync.synced = committedEnd := by
          show (f.bytes.take committedEnd).length = committedEnd
          rw [List.length_take]
          omega
        rwa [hlen] at hsync
      · rw [if_neg hlt]
        exact Does.bind (.pure (.pure (hsame hlt)))
  · cases e with
    | err e => exact .pure (.pure (hblind e he))
    | panic => exact hE _ (hcall _ _ he)
    | crash => exact hE _ (hcall _ _ he)

theorem does_readForRecovery_bytes {w : Wal} (henv : env.Spares (onPath w.filePath))
    {entries : List WalEntry} {committedCount committedEnd : ℕ}
    (hparse : parseBuffer p (d.bytesOf w.filePath) = .ok (entries, committedCount, committedEnd))
    {Q : List WalEntry → Wal → Disk → Prop} {E : Stop → Wal → Disk → Prop}
    (hsame : ¬ committedEnd < (d.bytesOf w.filePath).length → Q (entries.take committedCount) w d)
    (hcut : committedEnd < (d.bytesOf w.filePath).length → ∀ d',
      d.Becomes w.filePath ((d.bytesOf w.filePath).take committedEnd) committedEnd d' →
      Q (entries.take committedCount) ⟨w.filePath, false⟩ d') :
    Does env (Wal.readForRecovery p) w d Q E :=
  does_readForRecovery_faults hparse hsame hcut
    (fun _ he => (henv.not_faults (he.mono fun c hc => by rw [hc]; rfl)).elim)
    (fun _ he => (henv.not_faults he).elim) fun _ _ he => (henv.not_faults he).elim

/-- **Recovery.** The entries up to the last COMMIT are returned, and the file is cut there. A fault leaves
it cut or as it was. -/
theorem does_readForRecovery_faulty (hp : p.Lawful) {w : Wal} (hw : w.Live d) {es : List WalEntry} {t : Bytes}
    (hbytes : d.bytesOf w.filePath = logBytes p es ++ t) (ht : Torn p.encodeEntry maxVecLen t)
    (hsync : (logBytes p (committedPart es)).length ≤ d.syncedOf w.filePath)
    {Q : List WalEntry → Wal → Disk → Prop} {E : Stop → Wal → Disk → Prop}
    (hQ : ∀ w' d', w'.filePath = w.filePath → w'.Live d' →
      d.Becomes w.filePath (logBytes p (committedPart es)) (logBytes p (committedPart es)).length d' →
      Q (committedPart es) w' d')
    (hblind : ∀ e, env.Faults (· = ⟨.exists, w.filePath⟩) (.err e) → Q [] w d)
    (hE : ∀ e d', env.Faults (onPath w.filePath) e →
      (d' = d ∨ d.Becomes w.filePath (logBytes p (committedPart es)) (logBytes p (committedPart es)).length d') →
      E e w d') :
    Does env (Wal.readForRecovery p) w d Q E := by
  have hlen := d.bytesOf_length_le w.filePath
  have hparse := parseBuffer_frames hp ht
    (show (logBytes p es ++ t).length ≤ maxVecLen by rw [← hbytes]; exact hlen)
  rw [← hbytes] at hparse
  obtain ⟨rest, hrest⟩ := prefix_committed isCommit es
  have htake : es.take (committedPart es).length = committedPart es := by
    conv => lhs; arg 2; rw [← hrest]
    exact List.take_left
  have hsplit : d.bytesOf w.filePath = logBytes p (committedPart es) ++ (logBytes p rest ++ t) := by
    rw [hbytes, ← List.append_assoc, ← logBytes_append, hrest]
  have hblen := congrArg List.length hsplit
  rw [List.length_append] at hblen
  refine does_readForRecovery_faults hparse (fun hlt => ?_) (fun _ d' hb => ?_) hblind
    (fun e he => hE e d he (Or.inl rfl)) fun e d' he _ hb => hE e d' he (Or.inr ?_)
  · rw [htake]
    refine hQ w d rfl hw ?_
    have hself := d.becomes_self w.filePath
    have hnil : logBytes p rest ++ t = [] := List.length_eq_zero_iff.1 (by omega)
    have hs : d.syncedOf w.filePath = (logBytes p (committedPart es)).length := by
      have hle := d.syncedOf_le w.filePath
      rw [hsplit, hnil, List.append_nil] at hle
      exact Nat.le_antisymm hle hsync
    rwa [hs, hsplit, hnil, List.append_nil] at hself
  · rw [htake]
    rw [hsplit, List.take_left] at hb
    exact hQ _ d' rfl (fun h => by cases h) hb
  · rwa [hsplit, List.take_left, Nat.min_eq_right hsync] at hb

end FerrumDB
