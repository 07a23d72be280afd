import FerrumDB.Store.Open

/-!
# What a crash leaves

A crash keeps what was fsynced and, of the log, some bytes of what was appended since. A table is
fsynced before anything counts on it, so it survives (`TablesStored.crash`). A batch that was being
logged survives as a whole or leaves nothing but a tail without a COMMIT (`LogStored.crash_batch`).
-/

namespace FerrumDB

open FramedLog

variable {d : Disk} {p : Prost} {keep : FileName → ℕ} {log : List WalEntry} {data : Memtable}

/-! ## Files -/

theorem Disk.files_crash (d : Disk) (keep : FileName → ℕ) (name : FileName) :
    (d.crash keep).files[name]? = (d.files[name]?).map fun f => f.crash (keep name) := by
  show (d.files.map fun name f => f.crash (keep name))[name]? = _
  rw [Std.ExtTreeMap.getElem?_map]

theorem Disk.bytesOf_crash (d : Disk) (keep : FileName → ℕ) (name : FileName) :
    (d.crash keep).bytesOf name = (d.bytesOf name).take (d.syncedOf name + keep name) := by
  unfold Disk.bytesOf Disk.syncedOf
  rw [Disk.files_crash]
  cases d.files[name]? with
  | none => simp
  | some f => rfl

theorem Disk.syncedOf_crash (d : Disk) (keep : FileName → ℕ) (name : FileName) :
    (d.crash keep).syncedOf name = ((d.crash keep).bytesOf name).length := by
  unfold Disk.bytesOf Disk.syncedOf
  rw [Disk.files_crash]
  cases d.files[name]? with
  | none => rfl
  | some f => rfl

theorem File.crash_of_synced {f : File} (h : f.synced = f.bytes.length) (n : ℕ) :
    (f.crash n).bytes = f.bytes ∧ (f.crash n).synced = f.bytes.length := by
  have hbytes : (f.crash n).bytes = f.bytes := List.take_of_length_le (by omega)
  exact ⟨hbytes, congrArg List.length hbytes⟩

theorem File.Holds.crash {f : File} {entries : List Record} (h : f.Holds p entries) (n : ℕ) :
    (f.crash n).Holds p entries := by
  obtain ⟨hbytes, hsynced⟩ := File.crash_of_synced h.synced n
  exact ⟨hbytes.trans h.bytes, by rw [hsynced, hbytes], h.fits, h.ascending⟩

/-- **Tables survive a crash.** -/
theorem TablesStored.crash {tables : List (ℕ × Memtable)} (h : TablesStored p d tables)
    (keep : FileName → ℕ) : TablesStored p (d.crash keep) tables where
  table x hx := by
    obtain ⟨f, hf, hholds⟩ := h.table x hx
    exact ⟨_, by rw [Disk.files_crash, hf]; rfl, hholds.crash _⟩
  descending := h.descending
  ids := h.ids
  files name f hname := by
    rw [Disk.files_crash] at hname
    obtain ⟨g, hg, -⟩ := Option.map_eq_some_iff.1 hname
    exact h.files name g hg

/-! ## The log -/

/-- A byte prefix of the frames of `es`: the whole frames of a part of them, and a torn frame. -/
theorem exists_torn {es : List WalEntry} {u : Bytes} (hu : u <+: logBytes p es)
    (hlen : (logBytes p es).length ≤ maxVecLen) :
    ∃ es₁ es₂ t, es = es₁ ++ es₂ ∧ u = logBytes p es₁ ++ t ∧ Torn p.encodeEntry maxVecLen t ∧
      (es₂ = [] → t = []) := by
  obtain ⟨es₁, es₂, t, hes, htake, ht, -⟩ := take_frames p.encodeEntry hlen u.length
  have hu' : u = logBytes p es₁ ++ t := (List.prefix_iff_eq_take.1 hu).trans htake
  refine ⟨es₁, es₂, t, hes, hu', ht, fun h2 => ?_⟩
  have hle := hu.length_le
  rw [h2, List.append_nil] at hes
  rw [hu', hes, List.length_append] at hle
  exact List.length_eq_zero_iff.1 (by omega)

/-- The log after a crash, when what was appended to it is a part of `es`. -/
theorem bytesOf_crash_append {es : List WalEntry} {u : Bytes}
    (hbytes : d.bytesOf walName = logBytes p log ++ u)
    (hsynced : (logBytes p log).length ≤ d.syncedOf walName) (hu : u <+: logBytes p es) :
    ∃ u', (d.crash keep).bytesOf walName = logBytes p log ++ u' ∧ u' <+: logBytes p es := by
  refine ⟨u.take (d.syncedOf walName + keep walName - (logBytes p log).length), ?_,
    (List.take_prefix _ _).trans hu⟩
  rw [Disk.bytesOf_crash, hbytes, List.take_append, List.take_of_length_le (by omega)]

/-- **All or nothing.** After a crash while a batch was appended to a clean log, the log holds the
batch with its COMMIT, or only remains without one. -/
theorem LogStored.crash_batch {d₀ : Disk} (h : LogStored p d₀ log data [] []) {sequence sequence' : UInt64}
    {b : Batch} {u : Bytes} (hbytes : d.bytesOf walName = logBytes p log ++ u)
    (hsynced : (logBytes p log).length ≤ d.syncedOf walName)
    (hu : u <+: logBytes p (batchLog sequence b ++ [commitEntry sequence']))
    (hlen : (logBytes p (batchLog sequence b ++ [commitEntry sequence'])).length ≤ maxVecLen)
    (keep : FileName → ℕ) :
    (∃ junk t, LogStored p (d.crash keep) log data junk t) ∨
      LogStored p (d.crash keep) (log ++ (batchLog sequence b ++ [commitEntry sequence']))
        (applyBatch data b) [] [] := by
  obtain ⟨u', hbytes', hu'⟩ : ∃ u', (d.crash keep).bytesOf walName = _ ++ u' ∧ _ :=
    bytesOf_crash_append hbytes hsynced hu
  obtain ⟨es₁, es₂, t, hes, hut, ht, hall⟩ := exists_torn hu' hlen
  have hsync := d.syncedOf_crash keep walName
  rw [hut, ← List.append_assoc, ← logBytes_append] at hbytes'
  rcases List.eq_nil_or_concat' es₂ with h2 | ⟨es₃, c, h2⟩
  · -- the COMMIT survived
    right
    rw [h2, List.append_nil] at hes
    rw [hall h2, ← hes] at hbytes'
    exact {
      bytes := by rw [hbytes', List.append_nil, List.append_nil, List.append_nil]
      synced := by rw [hsync, hbytes', List.append_nil]
      closed := closed_write _ _ _
      unmarked := fun e he => by cases he
      torn := torn_nil _ _
      replays := h.replays.write h.closed (logs_batchLog _ b) _ }
  · left
    rw [h2, ← List.append_assoc] at hes
    obtain ⟨hb, -⟩ := List.append_inj' hes rfl
    refine ⟨es₁, t, hbytes', ?_, h.closed, fun e he => ?_, ht, h.replays⟩
    · rw [hsync, hbytes', logBytes_append, List.length_append, List.length_append]
      omega
    · exact (logs_batchLog sequence b).unmarked e (by rw [hb]; exact List.mem_append_left _ he)

/-- **The log survives a crash**, with some of the remains of unfinished writes. -/
theorem LogStored.crash {junk : List WalEntry} {t : Bytes} (h : LogStored p d log data junk t)
    (keep : FileName → ℕ) : ∃ junk' t', LogStored p (d.crash keep) log data junk' t' := by
  have hbytes := h.bytes
  have hsynced := h.synced
  have hlen := d.bytesOf_length_le walName
  have hcrash := d.bytesOf_crash keep walName
  have hsync := d.syncedOf_crash keep walName
  rw [logBytes_append, List.append_assoc] at hbytes
  rw [hbytes, List.length_append, List.length_append] at hlen
  obtain ⟨junk', t', hsub, htake, ht'⟩ := take_frames_torn p.encodeEntry h.torn
    (show (logBytes p junk).length ≤ maxVecLen by unfold maxVecLen; unfold maxFileLen at hlen; omega)
    (d.syncedOf walName + keep walName - (logBytes p log).length)
  rw [hbytes, List.take_append, List.take_of_length_le (by omega)] at hcrash
  have htake : (logBytes p junk ++ t).take
      (d.syncedOf walName + keep walName - (logBytes p log).length) = logBytes p junk' ++ t' := htake
  rw [htake, ← List.append_assoc, ← logBytes_append] at hcrash
  refine ⟨junk', t', hcrash, ?_, h.closed, fun e he => h.unmarked e (hsub.subset he), ht', h.replays⟩
  rw [hsync, hcrash, logBytes_append, List.length_append, List.length_append]
  omega

/-- The directory survives a crash. -/
theorem Stored.crash {L : Layers} {junk : List WalEntry} {t : Bytes} (h : Stored p d L junk t)
    (keep : FileName → ℕ) : ∃ junk' t', Stored p (d.crash keep) L junk' t' := by
  obtain ⟨junk', t', hlog⟩ := h.toLogStored.crash keep
  exact ⟨junk', t', { h.toTablesStored.crash keep, hlog with }⟩

end FerrumDB
