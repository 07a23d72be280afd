import FerrumDB.Wal.Framing
import FerrumDB.Panics
import FerrumDB.Wire

/-!
# Recovering a malformed log

The parser adds a length that it has not checked to its offset. On the content of any log file this is
the one way to a panic: the parser gets to a length that takes the offset to `2 ^ 64` (`FarLength`).
On all other contents it terminates within the buffer, takes a length that reaches past the end for a
truncated tail, and recovery does not panic (`recovery_safe_iff`).
-/

namespace FerrumDB

open ByteCodec FramedLog

variable {p : Prost} {buffer : Bytes} {st st' : Parsed}

def Parsed.start : Parsed := ⟨[], 0, 0, 0⟩

/-- The loop gets to its head with the variables `st`. -/
def AtHead (p : Prost) (buffer : Bytes) (st : Parsed) : Prop :=
  ∃ rounds, ∀ fuel, parseLoop p buffer (fuel + rounds) .start = parseLoop p buffer fuel st

/-- The length at `offset` is there, and it reaches past the end of the buffer. -/
def PastEnd (buffer : Bytes) (offset : ℕ) : Prop :=
  offset + 8 ≤ buffer.length ∧ buffer.length < offset + 8 + ofBe ((buffer.drop offset).take 8)

/-- Whole frames and then a length that takes the offset past the last 64-bit number. -/
def FarLength (buffer : Bytes) : Prop :=
  ∃ payloads t, buffer = frames id payloads ++ t ∧ 8 ≤ t.length ∧
    2 ^ 64 ≤ (frames id payloads).length + 8 + ofBe (t.take 8)

/-- What is asked of the parser on these bytes, and of recovery from a log that holds them. -/
structure RecoverySafe (p : Prost) (buffer : Bytes) : Prop where
  terminates : ∃ st, ∀ fuel, buffer.length ≤ fuel → parseLoop p buffer fuel .start = .ok st
  offset : ∀ st, AtHead p buffer st → st.offset ≤ buffer.length
  tail : ∀ st, AtHead p buffer st → PastEnd buffer st.offset →
    parseBuffer p buffer = .ok (st.entries, st.committedCount, st.committedEnd)
  committed : ∀ entries count committedEnd, parseBuffer p buffer = .ok (entries, count, committedEnd) →
    committedEnd ≤ buffer.length
  recovers : ∀ w d, d.bytesOf w.filePath = buffer →
    NeverPanics (Wal.readForRecovery p) w d ∧ NeverPanics (Wal.readAll p) w d

/-! ## The loop on any bytes -/

@[simp] theorem offset_push (entry : WalEntry) (offset : ℕ) : (st.push entry offset).offset = offset := by
  unfold Parsed.push
  split <;> rfl

theorem committedEnd_push {entry : WalEntry} {offset : ℕ} :
    (st.push entry offset).committedEnd = st.committedEnd ∨ (st.push entry offset).committedEnd = offset := by
  unfold Parsed.push
  dsimp only
  split_ifs
  · exact Or.inr rfl
  · exact Or.inl rfl

/-- **One round.** It stops, with a panic or at most eight bytes on, or goes on with eight bytes or more
behind it. -/
theorem parseLoop_cases (p : Prost) (buffer : Bytes) (st : Parsed) :
    (buffer.length < st.offset + 8 ∧ ∀ fuel, parseLoop p buffer fuel st = .ok st) ∨
      (∃ r, (r = .error .panic ∨ r = .ok { st with offset := st.offset + 8 }) ∧
        st.offset + 8 ≤ buffer.length ∧ ∀ fuel, parseLoop p buffer (fuel + 1) st = r) ∨
      ∃ st', st.offset + 8 ≤ st'.offset ∧ st'.offset ≤ buffer.length ∧
        (st'.committedEnd = st.committedEnd ∨ st'.committedEnd = st'.offset) ∧
        ∀ fuel, parseLoop p buffer (fuel + 1) st = parseLoop p buffer fuel st' := by
  by_cases h8 : buffer.length < st.offset + 8
  · refine Or.inl ⟨h8, fun fuel => ?_⟩
    cases fuel with
    | zero => rfl
    | succ fuel =>
      unfold parseLoop
      split_ifs <;> rfl
  right
  by_cases hfar : st.offset + 8 + ofBe ((buffer.drop st.offset).take 8) ≥ 2 ^ 64
  · refine Or.inl ⟨_, Or.inl rfl, by omega, fun fuel => ?_⟩
    unfold parseLoop
    rw [if_pos (by omega), if_neg (by omega)]
    exact if_pos hfar
  by_cases hpast : st.offset + 8 + ofBe ((buffer.drop st.offset).take 8) > buffer.length
  · refine Or.inl ⟨_, Or.inr rfl, by omega, fun fuel => ?_⟩
    unfold parseLoop
    rw [if_pos (by omega), if_neg (by omega)]
    dsimp only
    rw [if_neg hfar, if_pos hpast]
  right
  cases hdec : p.decodeEntry ((buffer.drop (st.offset + 8)).take (ofBe ((buffer.drop st.offset).take 8))) with
  | ok entry =>
    refine ⟨st.push entry (st.offset + 8 + ofBe ((buffer.drop st.offset).take 8)), ?_⟩
    rw [offset_push]
    refine ⟨by omega, by omega, committedEnd_push, fun fuel => ?_⟩
    conv => lhs; unfold parseLoop
    rw [if_pos (by omega), if_neg (by omega)]
    dsimp only
    rw [if_neg hfar, if_neg hpast, hdec]
  | error msg =>
    refine ⟨{ st with offset := st.offset + 8 + ofBe ((buffer.drop st.offset).take 8) },
      by dsimp only; omega, by dsimp only; omega, Or.inl rfl, fun fuel => ?_⟩
    conv => lhs; unfold parseLoop
    rw [if_pos (by omega), if_neg (by omega)]
    dsimp only
    rw [if_neg hfar, if_neg hpast, hdec]

/-- **Termination.** Once there is a round for every byte that is left, more rounds change nothing. -/
theorem parseLoop_fuel {fuel fuel' : ℕ} (h : buffer.length ≤ st.offset + fuel)
    (h' : buffer.length ≤ st.offset + fuel') : parseLoop p buffer fuel st = parseLoop p buffer fuel' st := by
  induction fuel generalizing st fuel' with
  | zero =>
    rcases parseLoop_cases p buffer st with ⟨-, hstop⟩ | ⟨r, -, h8, -⟩ | ⟨st', h8, hle, -, -⟩
    · rw [hstop, hstop]
    · omega
    · omega
  | succ fuel ih =>
    cases fuel' with
    | zero =>
      rcases parseLoop_cases p buffer st with ⟨-, hstop⟩ | ⟨r, -, h8, -⟩ | ⟨st', h8, hle, -, -⟩
      · rw [hstop, hstop]
      · omega
      · omega
    | succ fuel' =>
      rcases parseLoop_cases p buffer st with ⟨-, hstop⟩ | ⟨r, -, -, hr⟩ | ⟨st', h8, -, -, hnext⟩
      · rw [hstop, hstop]
      · rw [hr, hr]
      · rw [hnext, hnext]
        exact ih (by omega) (by omega)

/-- The offset and the end of the last COMMIT stay within the buffer. -/
theorem parseLoop_within {fuel : ℕ} (hoff : st.offset ≤ buffer.length)
    (hend : st.committedEnd ≤ buffer.length) (h : parseLoop p buffer fuel st = .ok st') :
    st'.offset ≤ buffer.length ∧ st'.committedEnd ≤ buffer.length := by
  induction fuel generalizing st with
  | zero =>
    cases h
    exact ⟨hoff, hend⟩
  | succ fuel ih =>
    rcases parseLoop_cases p buffer st with ⟨-, hstop⟩ | ⟨r, hr, h8, hround⟩ | ⟨st₁, -, hle, hcom, hnext⟩
    · rw [hstop] at h
      cases h
      exact ⟨hoff, hend⟩
    · rw [hround] at h
      rcases hr with rfl | rfl
      · cases h
      · cases h
        exact ⟨h8, hend⟩
    · rw [hnext] at h
      refine ih hle ?_ h
      rcases hcom with hsame | hnew
      · omega
      · omega

theorem AtHead.within (h : AtHead p buffer st) : st.offset ≤ buffer.length := by
  obtain ⟨rounds, hrounds⟩ := h
  exact (parseLoop_within (Nat.zero_le _) (Nat.zero_le _) (hrounds 0)).1

/-- At a length that reaches past the end, the loop stops with what it has. -/
theorem AtHead.tail (h : AtHead p buffer st) (hpast : PastEnd buffer st.offset) {st₁ : Parsed}
    (hloop : ∀ fuel, buffer.length ≤ fuel → parseLoop p buffer fuel .start = .ok st₁) :
    st₁ = { st with offset := st.offset + 8 } := by
  obtain ⟨rounds, hrounds⟩ := h
  have hend := hloop (buffer.length + rounds) (by omega)
  obtain ⟨h8, hlen⟩ := hpast
  rw [hrounds] at hend
  obtain ⟨fuel, hfuel⟩ : ∃ n, buffer.length = n + 1 := ⟨buffer.length - 1, by omega⟩
  rw [hfuel] at hend
  unfold parseLoop at hend
  rw [if_pos (by omega), if_neg (by omega)] at hend
  dsimp only at hend
  by_cases hfar : st.offset + 8 + ofBe ((buffer.drop st.offset).take 8) ≥ 2 ^ 64
  · rw [if_pos hfar] at hend
    cases hend
  · rw [if_neg hfar, if_pos (by omega)] at hend
    exact (Except.ok.inj hend).symm

/-! ## Overflow -/

/-- The parser of a buffer that fits a file panics exactly at a far length. -/
theorem parseBuffer_panics_iff (hlen : buffer.length ≤ maxFileLen) :
    (∃ r, parseBuffer p buffer = .ok r) ↔ ¬ FarLength buffer := by
  unfold maxFileLen at hlen
  constructor
  · rintro ⟨r, hr⟩ ⟨payloads, t, hb, h8, hfar⟩
    have hblen := congrArg List.length hb
    rw [List.length_append] at hblen
    have hsplits : Splits buffer payloads t := by
      refine ⟨hb, fun b hmem => ?_, Or.inr (by omega)⟩
      obtain ⟨l, l', rfl⟩ := List.append_of_mem hmem
      simp only [frames_append, frames_cons, List.length_append, FramedLog.length_frame, id] at hblen
      omega
    rw [parseBuffer_splits hsplits, if_neg fun h => absurd (h.rest h8) (by omega)] at hr
    cases hr
  · intro hnot
    obtain ⟨payloads, t, hsplits⟩ := exists_splits buffer
    have hblen := congrArg List.length hsplits.bytes
    rw [List.length_append] at hblen
    have hfits : NoOverflow payloads t := by
      refine ⟨by omega, fun h8 => ?_⟩
      by_contra hfar
      exact hnot ⟨payloads, t, hsplits.bytes, h8, by omega⟩
    exact ⟨_, by rw [parseBuffer_splits hsplits, if_pos hfits]⟩

theorem parseBuffer_ne_panic {r : List WalEntry × ℕ × ℕ} (h : parseBuffer p buffer = .ok r) :
    parseBuffer p buffer ≠ .error .panic := by
  rw [h]
  nofun

/-! ## Recovery -/

variable {w : Wal} {d : Disk}

/-- What is read is the content of the log file. -/
theorem calm_readFile (w : Wal) (d : Disk) : Calm Wal.readFile w d fun r w' d' =>
    w' = w ∧ d' = d ∧ ∀ buffer, r = some buffer → buffer = d.bytesOf w.filePath := by
  unfold Wal.readFile
  refine .withSelf fun env => Does.bind (does_pathExists ?_ fun e he => ?_)
  · cases hf : d.files[w.filePath]? with
    | none => exact .pure ⟨rfl, rfl, nofun⟩
    | some f =>
      have hread : Calm (openRead w.filePath >>= fun _ => readToEnd w.filePath >>= fun b => pure (some b))
          w d fun r w' d' => w' = w ∧ d' = d ∧ ∀ buffer, r = some buffer → buffer = d.bytesOf w.filePath := by
        refine .bind (calm_openRead (.bind (.ioCall fun bs d' h => .pure ?_)))
        rw [hf] at h
        cases h
        refine ⟨rfl, rfl, fun buffer hb => ?_⟩
        rw [Disk.bytesOf_of_some hf]
        exact (Option.some.inj hb).symm
      exact hread env
  · rcases he.cases with ⟨msg, rfl⟩ | rfl
    · exact .pure ⟨rfl, rfl, nofun⟩
    · nofun

/-- Recovery panics only where the parser does. -/
theorem calm_readForRecovery (h : parseBuffer p (d.bytesOf w.filePath) ≠ .error .panic) :
    NeverPanics (Wal.readForRecovery p) w d := by
  unfold Wal.readForRecovery
  refine .bind ((calm_readFile w d).mono ?_)
  rintro r w' d' ⟨rfl, rfl, hr⟩
  cases r with
  | none => exact .pure trivial
  | some buffer =>
    rw [← hr buffer rfl] at h
    refine .bind (.ofStop (fun r _ => ?_) h)
    refine .withSelf ?_
    dsimp only
    split_ifs
    · refine .bind (.ioCall fun _ _ _ => .bind (.ioCall fun _ _ _ => .bind (.ioCall fun _ _ _ => ?_)))
      exact .bind (.setSelf (.pure trivial))
    · exact .bind (.pure (.pure trivial))

theorem calm_readAll (h : parseBuffer p (d.bytesOf w.filePath) ≠ .error .panic) :
    NeverPanics (Wal.readAll p) w d := by
  unfold Wal.readAll
  refine .bind ((calm_readFile w d).mono ?_)
  rintro r w' d' ⟨rfl, rfl, hr⟩
  cases r with
  | none => exact .pure trivial
  | some buffer =>
    rw [← hr buffer rfl] at h
    exact .bind (.ofStop (fun r _ => .pure trivial) h)

/-- **A malformed log.** Whatever the content of the log file, the parser terminates within it, takes a
length past the end for a truncated tail, and lets recovery go on, if and only if it meets no length
that takes its offset past the last 64-bit number. -/
theorem recovery_safe_iff (p : Prost) (f : File) : RecoverySafe p f.bytes ↔ ¬ FarLength f.bytes := by
  rw [← parseBuffer_panics_iff (p := p) f.length_le]
  constructor
  · intro h
    obtain ⟨st, hst⟩ := h.terminates
    refine ⟨(st.entries, st.committedCount, st.committedEnd), ?_⟩
    unfold parseBuffer
    rw [show (⟨[], 0, 0, 0⟩ : Parsed) = .start from rfl, hst _ (Nat.le_refl _)]
  · rintro ⟨r, hr⟩
    -- the state with which the loop stops
    obtain ⟨st, hst⟩ : ∃ st, parseLoop p f.bytes f.bytes.length .start = .ok st := by
      unfold parseBuffer at hr
      rw [show (⟨[], 0, 0, 0⟩ : Parsed) = .start from rfl] at hr
      cases hloop : parseLoop p f.bytes f.bytes.length .start with
      | ok st => exact ⟨st, rfl⟩
      | error e =>
        rw [hloop] at hr
        cases hr
    have hparse : parseBuffer p f.bytes = .ok (st.entries, st.committedCount, st.committedEnd) := by
      unfold parseBuffer
      rw [show (⟨[], 0, 0, 0⟩ : Parsed) = .start from rfl, hst]
    have hloop : ∀ fuel, f.bytes.length ≤ fuel → parseLoop p f.bytes fuel .start = .ok st := by
      intro fuel hfuel
      rw [← hst]
      exact parseLoop_fuel (by omega) (by omega)
    refine ⟨⟨st, hloop⟩, fun _ h => h.within, fun st' h hpast => ?_, fun entries count e he => ?_,
      fun w d hd => ?_⟩
    · rw [hparse, h.tail hpast hloop]
    · rw [hparse] at he
      cases he
      exact (parseLoop_within (Nat.zero_le _) (Nat.zero_le _) hst).2
    · have hne := parseBuffer_ne_panic hr
      rw [← hd] at hne
      exact ⟨calm_readForRecovery hne, calm_readAll hne⟩

/-- Eight bytes of a length that reaches past the last offset. -/
def farLog : File := File.empty.append (List.replicate 8 255)

theorem far_length_panics : parseBuffer Prost.wire farLog.bytes = .error .panic ∧
    ¬ RecoverySafe Prost.wire farLog.bytes := by
  have hpanic : parseBuffer Prost.wire farLog.bytes = .error .panic := by decide +kernel
  refine ⟨hpanic, fun h => ?_⟩
  obtain ⟨st, hst⟩ := h.terminates
  unfold parseBuffer at hpanic
  rw [show (⟨[], 0, 0, 0⟩ : Parsed) = .start from rfl, hst _ (Nat.le_refl _)] at hpanic
  cases hpanic

end FerrumDB
