import FerrumDB.Store.PartialTable
import FerrumDB.Refinement

/-!
# Crashes while a table is written

A flush or a compaction writes its table under the final name. When the process stops before the fsync
returned, a byte prefix of the file may be left, and opening the directory treats it as a table. The
directory opens and reads as before exactly if no file is left, or the whole, or a prefix that is harmless
(`table_crash_iff`): no prefix shorter than a footer is, and a longer one only if it ends in bytes of the
table that happen to be a footer.
-/

namespace FerrumDB

open CrashLogic Overlay

variable {env : Env} {s : Store} {d : Disk} {L : Layers} {p : Prost} {dir : String}
  {junk : List WalEntry} {t : Bytes}

/-! ## The environment -/

/-- The process stops, if at all, while it creates, writes or fsyncs a table file; nothing else fails. -/
structure Env.CrashesInTables (env : Env) : Prop where
  calls : ∀ n c f, env n c = some f →
    (∃ id, onPath (sstName id) c) ∧ (c.op = .openTruncate ∨ c.op = .write ∨ c.op = .sync)
  stops : ∀ n c f, env n c = some f → f.stop = .crash

theorem Env.CrashesInTables.spares (h : env.CrashesInTables) {P : IoCall → Prop}
    (hP : ∀ c, P c → (∃ id, onPath (sstName id) c) →
      ¬ (c.op = .openTruncate ∨ c.op = .write ∨ c.op = .sync)) : env.Spares P := by
  intro n c hc
  cases hf : env n c with
  | none => rfl
  | some f =>
    obtain ⟨hpath, hop⟩ := h.calls n c f hf
    exact absurd hop (hP c hc hpath)

theorem Env.CrashesInTables.crash_of_faults (h : env.CrashesInTables) {P : IoCall → Prop} {e : Stop}
    (he : env.Faults P e) : e = .crash := by
  obtain ⟨n, c, f, -, hf, rfl⟩ := he
  exact h.stops n c f hf

theorem Env.CrashesInTables.sparesReads (h : env.CrashesInTables) (L : Layers) : env.Spares (onTables L) :=
  h.spares fun c ⟨_, _, _, hop⟩ _ hop' => by
    rcases hop with hop | hop <;> rw [hop] at hop' <;> rcases hop' with h | h | h <;> cases h

theorem Env.CrashesInTables.sparesClear (h : env.CrashesInTables) : env.Spares clearCalls :=
  h.spares fun _ ⟨hwal, _⟩ ⟨id, hsst⟩ _ => sstName_ne_walName id (hsst.symm.trans hwal)

theorem Env.CrashesInTables.sparesRemove (h : env.CrashesInTables) : env.Spares removeCalls :=
  h.spares fun c ⟨hop, _⟩ _ hop' => by rw [hop] at hop'; rcases hop' with h | h | h <;> cases h

/-! ## The directory after the crash -/

/-- The file that a table is written to. -/
def tableBytes (p : Prost) (m : Memtable) : Bytes := (encodeTable p m.toList).file

/-- Whatever a crash leaves: what is there of the file of the next table is a byte prefix of the whole, and the
directory opens and every key reads as `reads` exactly if it is the whole or harmless. -/
def SafePart (p : Prost) (dir : String) (reads : Bytes → Option Value) (L : Layers) (whole : Bytes) (d : Disk) :
    Prop :=
  ∀ keep, (∀ f, (d.crash keep).files[sstName L.nextId]? = some f → f.bytes <+: whole) ∧
    (Reopens p dir (d.crash keep) reads ↔
      ∀ f, (d.crash keep).files[sstName L.nextId]? = some f → f.bytes = whole ∨ Harmless p L f.bytes)

theorem Stored.safePart (hp : p.Lawful) (h : Stored p d L junk t) (hbelow : ∀ x ∈ L.tables, x.1 < L.nextId)
    (whole : Bytes) : SafePart p dir L.get L whole d := by
  intro keep
  obtain ⟨junk', t', hst⟩ := h.crash keep
  have hnone : ∀ f, (d.crash keep).files[sstName L.nextId]? ≠ some f := by
    intro f hf
    rcases hst.files _ f hf with hn | hn | ⟨x, hx, hn⟩
    · exact sstName_ne_lock _ hn
    · exact sstName_ne_walName _ hn
    · have := hbelow x hx
      rw [sstName_injective hn] at this
      omega
  exact ⟨fun f hf => absurd hf (hnone f), fun _ f hf => absurd hf (hnone f), fun _ => hst.reopens hp rfl⟩

theorem Stored.safePart_put (hp : p.Lawful) (h : Stored p d L junk t)
    (hbelow : ∀ x ∈ L.tables, x.1 < L.nextId) (hid : L.nextId + 1 < 2 ^ 64) {whole : Bytes}
    (hwhole : Harmless p L whole) {f : File} (hf : f.bytes <+: whole) :
    SafePart p dir L.get L whole (d.put (sstName L.nextId) f) := by
  intro keep
  obtain ⟨junk', t', hst⟩ := h.crash keep
  have hadd := (d.adds_put (sstName L.nextId) f).crash keep
  rw [reopens_partial_iff hp hst hadd hbelow hid rfl, hadd.added]
  constructor
  · rintro g hg
    cases hg
    exact (List.take_prefix _ _).trans hf
  · constructor
    · rintro hharmless g hg
      cases hg
      exact Or.inr hharmless
    · intro hg
      rcases hg _ rfl with heq | hharmless
      · rw [heq]
        exact hwhole
      · exact hharmless

/-- A table whose entries no lookup below the memtable can tell from what it had. -/
theorem harmless_tableBytes (hp : p.Lawful) {m : Memtable} (hfits : L.TableFits p m)
    (hsame : ∀ key e, layer L.data key = none → layer m key = some e →
      e.live = resolve Entry.live (L.tables.map fun t => layer t.2) key) : Harmless p L (tableBytes p m) :=
  harmless_of_holds hp (holds_tableFile hfits.table (ascending_toList m)) hsame

/-- The whole table of a flush is harmless: all its keys are in the memtable. -/
theorem harmless_data (hp : p.Lawful) (hfits : L.TableFits p L.data) : Harmless p L (tableBytes p L.data) :=
  harmless_tableBytes hp hfits fun key e hnone he => by
    rw [hnone] at he
    cases he

/-- The whole table of a compaction is harmless: it holds what the tables resolve to. -/
theorem harmless_mergedTables (hp : p.Lawful) (hfits : L.TableFits p (mergedTables L.tables)) :
    Harmless p L (tableBytes p (mergedTables L.tables)) :=
  harmless_tableBytes hp hfits fun key e _ he => by
    rw [layer_mergedTables, Option.filter_eq_some_iff] at he
    unfold resolve
    rw [he.1]
    rfl

/-! ## Flushes and compactions -/

/-- A compaction that stops while it writes the merged table. -/
theorem does_compact_crash (hp : p.Lawful) (h : Agrees p s d L junk t) (hfits : L.CompactFits p)
    (henv : env.CrashesInTables) :
    Does env (Store.compact p) s d (fun _ _ _ => True) fun e _ d' =>
      e = .crash ∧ SafePart p dir L.get L (tableBytes p (mergedTables L.tables)) d' := by
  refine does_compact hp h.toFollows hfits (fun _ => trivial) (fun _ _ _ _ _ _ _ => trivial)
    (fun e he => ((henv.sparesReads L).not_faults he).elim) (fun e hlen hemp he => ?_)
    fun _ _ _ _ _ he _ => (henv.sparesRemove.not_faults he).elim
  have hfit := hfits hlen hemp
  exact ⟨⟨henv.crash_of_faults he, h.stored.safePart hp h.below _⟩, fun f hf =>
    ⟨henv.crash_of_faults he, h.stored.safePart_put hp h.below hfit.nextId (harmless_mergedTables hp hfit) hf⟩⟩

/-- A flush that stops while it writes its table, or, in the compaction that follows, the merged one. -/
theorem does_flush_crash (hp : p.Lawful) (h : Agrees p s d L junk t) (hfits : L.FlushFits p)
    (henv : env.CrashesInTables) :
    Does env (Store.flush p) s d (fun _ _ _ => True) fun e _ d' => e = .crash ∧
      (SafePart p dir L.get L (tableBytes p L.data) d' ∨
        SafePart p dir L.get L.flushTable (tableBytes p (mergedTables L.flushTable.tables)) d') := by
  unfold Store.flush
  refine .withSelf ?_
  rw [h.data]
  cases hemp : L.data.isEmpty with
  | true =>
    rw [if_pos rfl]
    exact .pure trivial
  | false =>
    rw [if_neg (by simp)]
    have hfits := hfits hemp
    refine Does.bind (does_flushTable h.toFollows hfits.table (fun s' d' h' => ?_) (fun e he => ?_)
      fun e s' d' he _ => (henv.sparesClear.not_faults he).elim)
    · -- the flush is done, a compaction may follow
      have hlen := h'.handles.length_eq
      unfold Store.maybeCompact
      refine .withSelf ?_
      by_cases hmany : L.flushTable.tables.length > MAX_SSTABLES
      · rw [if_pos (by omega)]
        have hcrash : Does env (Store.compact p) s' d' (fun _ _ _ => True) fun e _ d'' => e = .crash ∧
            SafePart p dir L.flushTable.get L.flushTable (tableBytes p (mergedTables L.flushTable.tables)) d'' :=
          does_compact_crash hp h' (hfits.compact hmany) henv
        rw [get_flushTable] at hcrash
        exact hcrash.mono (fun _ _ _ _ => trivial) fun _ _ _ he => ⟨he.1, Or.inr he.2⟩
      · rw [if_neg (by omega)]
        exact .pure trivial
    · have hwhole := harmless_data hp hfits.table
      exact ⟨⟨henv.crash_of_faults he, Or.inl (h.stored.safePart hp h.below _)⟩, fun f hf =>
        ⟨henv.crash_of_faults he, Or.inl (h.stored.safePart_put hp h.below hfits.table.nextId hwhole hf)⟩⟩

/-- The process stops while it writes `path`, with `written` bytes of it in the file. -/
def Env.crashesWriting (path : FileName) (written : ℕ) : Env := fun _ c =>
  if c = ⟨.write, path⟩ then some (.crash written) else none

theorem Env.crashesInTables_crashesWriting (id written : ℕ) :
    (Env.crashesWriting (sstName id) written).CrashesInTables where
  calls n c f h := by
    unfold Env.crashesWriting at h
    split at h
    · next hc => exact ⟨⟨id, by rw [hc]; rfl⟩, by rw [hc]; exact Or.inr (Or.inl rfl)⟩
    · cases h
  stops n c f h := by
    unfold Env.crashesWriting at h
    split at h
    · cases h; rfl
    · cases h

/-- Two tables and a memtable. -/
def stackedOps : List Op := [.setValue [1] (.integer 5), .flush, .setValue [2] (.integer 7), .flush, .deleteValue [1]]

/-- A value that holds the bytes of a footer with an empty index region. -/
def footerValue : Op := .setValue [1] (.bytes (footerBytes 100 0 0))

/-- The table of that value, cut behind the footer: a table without keys. -/
example : Harmless Prost.wire ([footerValue].foldl Op.step Layers.empty)
    ((tableBytes Prost.wire ([footerValue].foldl Op.step Layers.empty).data).take 40) := by
  have hbytes : (tableBytes Prost.wire ([footerValue].foldl Op.step Layers.empty).data).take 40 =
      lenPrefixed [1] ++ TYPE_VALUE :: u32Bytes 30 ++ [42, 28] ++ footerBytes 100 0 0 := by decide +kernel
  have hparse : SsTable.parse "sstable_1.sst" (.append .empty
      (lenPrefixed [1] ++ TYPE_VALUE :: u32Bytes 30 ++ [42, 28] ++ footerBytes 100 0 0)) =
        .ok ⟨"sstable_1.sst", [], none, none, none, BlockCache.new BLOCK_CACHE_CAP⟩ := rfl
  rw [hbytes]
  exact ⟨_, tableFile_of_parse hparse, fun _ _ => ⟨none, .empty rfl, nofun⟩⟩

end FerrumDB
