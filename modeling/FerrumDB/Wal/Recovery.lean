import FerrumDB.Wal.Rules
import FerrumDB.Wire

/-!
# Recovering a log

A log cut at any byte parses to the entries whose frames are whole (`parse_undoes_framing`). On any
bytes at all, recovery keeps the frames up to the last COMMIT that decodes; recovering again changes
nothing, and entries appended afterwards parse behind the recovered ones (`recovery_idempotent`).
-/

namespace FerrumDB

open FramedLog

variable {p : Prost} {d d' : Disk} {w : Wal} {bytes t : Bytes} {payloads : List Bytes} {es : List WalEntry}

/-! ## Cutting a log -/

/-- The entries whose frames lie wholly within the first `n` bytes of the log. -/
def wholeWithin (p : Prost) : ℕ → List WalEntry → List WalEntry
  | _, [] => []
  | n, e :: es =>
    if (frame p e).length ≤ n then e :: wholeWithin p (n - (frame p e).length) es else []

/-- A part of the frame that follows the whole ones. -/
def CutFrame (p : Prost) (rest : List WalEntry) (t : Bytes) : Prop :=
  t = [] ∨ ∃ e rest', rest = e :: rest' ∧ t <+: frame p e ∧ t.length < (frame p e).length

theorem take_logBytes (es : List WalEntry) (n : ℕ) : ∃ rest t, es = wholeWithin p n es ++ rest ∧
    (logBytes p es).take n = logBytes p (wholeWithin p n es) ++ t ∧ CutFrame p rest t := by
  induction es generalizing n with
  | nil => exact ⟨[], [], rfl, by simp [wholeWithin], Or.inl rfl⟩
  | cons e es ih =>
    unfold wholeWithin
    rw [logBytes_cons]
    by_cases hn : (frame p e).length ≤ n
    · obtain ⟨rest, t, hes, htake, ht⟩ := ih (n - (frame p e).length)
      rw [if_pos hn]
      refine ⟨rest, t, by rw [List.cons_append, ← hes], ?_, ht⟩
      rw [List.take_append, List.take_of_length_le hn, htake, logBytes_cons, List.append_assoc]
    · -- the cut falls inside the first frame
      rw [if_neg hn]
      refine ⟨e :: es, (frame p e).take n, rfl, ?_, Or.inr ⟨e, es, rfl, List.take_prefix _ _, ?_⟩⟩
      · rw [List.take_append_of_le_length (by omega)]
        rfl
      · rw [List.length_take]
        omega

theorem CutFrame.incomplete {rest : List WalEntry} (h : CutFrame p rest t)
    (hlen : (logBytes p rest).length < 2 ^ 64) : Incomplete t := by
  have htorn : Torn p.encodeEntry (2 ^ 64 - 1) t := by
    rcases h with rfl | ⟨e, rest', rfl, hpre, hlt⟩
    · exact torn_nil _ _
    · rw [logBytes_cons, List.length_append] at hlen
      have hle : (frame p e).length ≤ 2 ^ 64 - 1 := by omega
      exact Or.inr ⟨e, hle, hpre, hlt⟩
  exact htorn.incomplete _ (by decide)

/-- A cut log does not make the parser overflow. -/
theorem CutFrame.noOverflow {rest : List WalEntry} (h : CutFrame p rest t)
    (hlen : (logBytes p (es ++ rest)).length < 2 ^ 64) : NoOverflow (es.map p.encodeEntry) t := by
  rw [logBytes_append, List.length_append] at hlen
  have hframes : (frames id (es.map p.encodeEntry)).length = (logBytes p es).length := by
    rw [frames_map]
    rfl
  refine ⟨by omega, fun h8 => ?_⟩
  rcases h with rfl | ⟨e, rest', rfl, hpre, -⟩
  · simp at h8
  · rw [logBytes_cons, List.length_append, length_frame] at hlen
    have htake : t.take 8 = ByteCodec.beBytes 8 (p.encodeEntry e).length := take_eight _ hpre h8
    rw [htake, ByteCodec.ofBe_beBytes_of_lt (by omega)]
    omega

/-- Recovering a log whose bytes parse to `es` keeps its committed part. -/
theorem returns_readForRecovery {rest : Bytes} (hbytes : d.bytesOf w.filePath = logBytes p es ++ rest)
    (hparse : parseBuffer p (logBytes p es ++ rest) =
      .ok (es, (committedPart es).length, (logBytes p (committedPart es)).length)) :
    Returns (Wal.readForRecovery p) w d fun entries _ d' =>
      entries = committedPart es ∧ d'.bytesOf w.filePath = logBytes p (committedPart es) := by
  rw [← hbytes] at hparse
  obtain ⟨later, hlater⟩ := prefix_committed isCommit es
  have htake : es.take (committedPart es).length = committedPart es := by
    conv => lhs; arg 2; rw [← hlater]
    exact List.take_left
  have hsplit : d.bytesOf w.filePath = logBytes p (committedPart es) ++ (logBytes p later ++ rest) := by
    rw [hbytes, ← List.append_assoc, ← logBytes_append, hlater]
  refine does_readForRecovery_bytes (Env.quiet_spares _) hparse (fun hlt => ⟨htake, ?_⟩)
    fun _ d' hb => ⟨htake, ?_⟩
  · have hlen := congrArg List.length hsplit
    rw [List.length_append] at hlen
    have hnil : logBytes p later ++ rest = [] := List.length_eq_zero_iff.1 (by omega)
    rw [hsplit, hnil, List.append_nil]
  · rw [hb.bytes, hsplit, List.take_left]

/-- The first `n` bytes of a log parse to the entries whose frames lie wholly within them, with the
number of entries up to the last COMMIT and the offset just past it; recovery returns those entries and
leaves their frames. -/
structure CutReads (p : Prost) (es : List WalEntry) (n : ℕ) : Prop where
  parse : parseBuffer p ((logBytes p es).take n) =
    .ok (wholeWithin p n es, (committedPart (wholeWithin p n es)).length,
      (logBytes p (committedPart (wholeWithin p n es))).length)
  recover : ∀ w d, d.bytesOf w.filePath = (logBytes p es).take n →
    Returns (Wal.readForRecovery p) w d fun entries _ d' =>
      entries = committedPart (wholeWithin p n es) ∧
      d'.bytesOf w.filePath = logBytes p (committedPart (wholeWithin p n es))

/-- **Parsing undoes framing under truncation at any byte.** -/
theorem parse_undoes_framing (hdec : Undoes p es) (hlen : (logBytes p es).length < 2 ^ 64) (n : ℕ) :
    CutReads p es n := by
  obtain ⟨rest, t, hes, htake, ht⟩ := take_logBytes (p := p) es n
  have hfit := hlen
  rw [hes, logBytes_append, List.length_append] at hfit
  have hwhole : (wholeWithin p n es).Sublist es := by
    conv => rhs; rw [hes]
    exact List.sublist_append_left _ _
  have hparse := parseBuffer_log (hdec.sublist hwhole) (ht.incomplete (by omega))
    (ht.noOverflow (by rw [← hes]; exact hlen))
  constructor
  · rw [htake, hparse]
  · intro w d hd
    rw [htake] at hd
    exact returns_readForRecovery hd hparse

/-- A put, its COMMIT, and a deletion whose frame is cut. -/
def sampleLog : List WalEntry :=
  [Wal.createPutEntry [1] (.integer 5) 1, commitEntry 1, Wal.createDeleteEntry [1] 2]

theorem parse_undoes_framing_sampleLog :
    Undoes Prost.wire sampleLog ∧ (logBytes Prost.wire sampleLog).length < 2 ^ 64 ∧
      CutReads Prost.wire sampleLog 40 :=
  have hdec : Undoes Prost.wire sampleLog := wire_lawful.undoes (by decide +kernel)
  have hlen : (logBytes Prost.wire sampleLog).length < 2 ^ 64 := by decide +kernel
  ⟨hdec, hlen, parse_undoes_framing hdec hlen 40⟩

example : wholeWithin Prost.wire 40 sampleLog = sampleLog.take 2 := by decide +kernel

/-! ## Recovering any bytes -/

/-- What recovery leaves of bytes that are the frames of `payloads` and then no whole one: the frames
up to the last COMMIT that decodes. Recovering that again changes nothing, and what is appended to it
parses behind it. -/
structure Recovered (p : Prost) (payloads : List Bytes) (entries : List WalEntry) (w : Wal) (d : Disk) :
    Prop where
  bytes : d.bytesOf w.filePath = frames id (committedPayloads p payloads)
  kept : entries = decoded p (committedPayloads p payloads)
  again : Returns (Wal.readForRecovery p) w d fun entries' w' d' => entries' = entries ∧ w' = w ∧ d' = d
  append : ∀ es, Undoes p es → (d.bytesOf w.filePath ++ logBytes p es).length < 2 ^ 64 →
    parseBuffer p (d.bytesOf w.filePath ++ logBytes p es) =
      .ok (entries ++ es, (entries ++ committedPart es).length,
        (d.bytesOf w.filePath ++ logBytes p (committedPart es)).length)

/-- The frames up to the last COMMIT split into themselves. -/
theorem splits_committed (h : Splits bytes payloads t) (es : List WalEntry)
    (hlen : (logBytes p es).length < 2 ^ 64) :
    Splits (frames id (committedPayloads p payloads) ++ logBytes p es)
      (committedPayloads p payloads ++ es.map p.encodeEntry) [] where
  bytes := by
    rw [frames_append, frames_map, List.append_nil]
    rfl
  lengths b hb := by
    rcases List.mem_append.1 hb with hb | hb
    · exact h.lengths b ((prefix_committed _ payloads).subset hb)
    · exact (splits_log incomplete_nil hlen).lengths b hb
  rest := incomplete_nil

/-- **Appending after recovery.** -/
theorem parseBuffer_append (h : Splits bytes payloads t) (hdec : Undoes p es)
    (hlen : (frames id (committedPayloads p payloads) ++ logBytes p es).length < 2 ^ 64) :
    parseBuffer p (frames id (committedPayloads p payloads) ++ logBytes p es) =
      .ok (decoded p (committedPayloads p payloads) ++ es,
        (decoded p (committedPayloads p payloads) ++ committedPart es).length,
        (frames id (committedPayloads p payloads) ++ logBytes p (committedPart es)).length) := by
  have hes : (logBytes p es).length < 2 ^ 64 := by
    rw [List.length_append] at hlen
    omega
  have hsplits := splits_committed h es hes
  have hfits : NoOverflow (committedPayloads p payloads ++ es.map p.encodeEntry) [] := by
    refine ⟨?_, fun h8 => ?_⟩
    · have hbytes := congrArg List.length hsplits.bytes
      rw [List.append_nil] at hbytes
      rwa [← hbytes]
    · simp at h8
  have hclosed : Closed (marksCommit p) (committedPayloads p payloads) := closed_committed _ payloads
  have hcom := hdec.sublist (prefix_committed isCommit es).sublist
  have hboth : committedPayloads p (committedPayloads p payloads ++ es.map p.encodeEntry) =
      committedPayloads p payloads ++ (committedPart es).map p.encodeEntry := by
    rw [committedPayloads, committed_closed_append _ hclosed]
    exact congrArg _ (committedPayloads_encoded hdec)
  rw [parseBuffer_splits hsplits, if_pos hfits, hboth, decoded_append, decoded_append,
    decoded_encoded hdec, decoded_encoded hcom, frames_append, frames_map]
  rfl

theorem decoded_take_committed (payloads : List Bytes) :
    (decoded p payloads).take (decoded p (committedPayloads p payloads)).length =
      decoded p (committedPayloads p payloads) := by
  obtain ⟨later, hlater⟩ := prefix_committed (marksCommit p) payloads
  conv => lhs; arg 2; rw [← hlater]
  rw [decoded_append]
  exact List.take_left

/-- What recovery leaves is recovered. -/
theorem recovered_of_bytes (h : Splits bytes payloads t) (hfits : NoOverflow payloads t)
    (hbytes : d.bytesOf w.filePath = frames id (committedPayloads p payloads)) :
    Recovered p payloads (decoded p (committedPayloads p payloads)) w d where
  bytes := hbytes
  kept := rfl
  again := by
    have hshort : (frames id (committedPayloads p payloads)).length < 2 ^ 64 := by
      obtain ⟨later, hlater⟩ := prefix_committed (marksCommit p) payloads
      have hlt := hfits.frames
      rw [← hlater, frames_append, List.length_append] at hlt
      exact lt_of_le_of_lt (Nat.le_add_right _ _) hlt
    have hnone : Undoes p [] := nofun
    have hparse := parseBuffer_append h hnone (by rwa [logBytes_nil, List.append_nil])
    rw [committedPart, committed_nil, logBytes_nil, List.append_nil, List.append_nil, ← hbytes] at hparse
    refine does_readForRecovery_bytes (Env.quiet_spares _) hparse (fun _ => ⟨?_, rfl, rfl⟩) fun hlt => ?_
    · exact List.take_length
    · exact absurd hlt (Nat.lt_irrefl _)
  append es hdec hlen := by
    rw [hbytes] at hlen ⊢
    exact parseBuffer_append h hdec hlen

/-- **Recovery is idempotent, whatever the bytes**, and leaves the log safe to append to. -/
theorem recovery_idempotent {r : List WalEntry × ℕ × ℕ} (hparse : parseBuffer p (d.bytesOf w.filePath) = .ok r) :
    ∃ payloads t, Splits (d.bytesOf w.filePath) payloads t ∧
      Returns (Wal.readForRecovery p) w d fun entries w' d' =>
        w'.filePath = w.filePath ∧ Recovered p payloads entries w' d' := by
  obtain ⟨payloads, t, hsplit⟩ := exists_splits (d.bytesOf w.filePath)
  refine ⟨payloads, t, hsplit, ?_⟩
  rw [parseBuffer_splits hsplit] at hparse
  have hfits : NoOverflow payloads t := by
    by_contra hnot
    rw [if_neg hnot] at hparse
    cases hparse
  have hok := parseBuffer_splits (p := p) hsplit
  rw [if_pos hfits] at hok
  obtain ⟨later, hlater⟩ := prefix_committed (marksCommit p) payloads
  have hbytes : d.bytesOf w.filePath = frames id (committedPayloads p payloads) ++ (frames id later ++ t) := by
    conv => lhs; rw [hsplit.bytes, ← hlater]
    rw [frames_append, List.append_assoc]
  have hlen := congrArg List.length hbytes
  rw [List.length_append] at hlen
  refine does_readForRecovery_bytes (Env.quiet_spares _) hok (fun hlt => ⟨rfl, ?_⟩)
    fun _ d' hb => ⟨rfl, ?_⟩
  · rw [decoded_take_committed]
    refine recovered_of_bytes hsplit hfits ?_
    have hnil : frames id later ++ t = [] := List.length_eq_zero_iff.1 (by omega)
    rw [hbytes, hnil, List.append_nil]
  · rw [decoded_take_committed]
    refine recovered_of_bytes hsplit hfits ?_
    rw [hb.bytes, hbytes, List.take_left]

/-- A frame that does not decode, a COMMIT, an entry after it, and a torn frame. -/
def sampleBytes : Bytes :=
  frames id [[7]] ++ logBytes Prost.wire [commitEntry 1, Wal.createDeleteEntry [1] 2] ++ [0, 0, 0]

/-- A directory whose log holds these bytes. -/
def sampleDisk : Disk := (Disk.empty.put "wal.log" File.empty).append "wal.log" sampleBytes

theorem recovery_idempotent_sampleBytes :
    (∃ r, parseBuffer Prost.wire (sampleDisk.bytesOf "wal.log") = .ok r) ∧
      ∃ payloads t, Splits (sampleDisk.bytesOf "wal.log") payloads t ∧
        Returns (Wal.readForRecovery Prost.wire) ⟨"wal.log", false⟩ sampleDisk fun entries w d =>
          w.filePath = "wal.log" ∧ Recovered Prost.wire payloads entries w d :=
  have hparse : parseBuffer Prost.wire (sampleDisk.bytesOf "wal.log") =
      .ok ([commitEntry 1, Wal.createDeleteEntry [1] 2], 1, 21) := by decide +kernel
  ⟨⟨_, hparse⟩, recovery_idempotent (w := ⟨"wal.log", false⟩) hparse⟩

end FerrumDB
