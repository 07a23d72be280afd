import FerrumDB.Wal

/-!
# Parsing undoes framing

Any bytes are the frames of some payloads and an incomplete rest, and `parseBuffer` decodes those
payloads (`parseBuffer_splits`). On the frames of a log it returns the entries of the log, the number of
them up to the last COMMIT, and the offset just past it (`parseBuffer_log`). The entries up to the last
COMMIT are the `committedPart`.
-/

namespace FerrumDB

open ByteCodec FramedLog

variable {p : Prost}

/-- The commit marks of the log. -/
def isCommit (e : WalEntry) : Bool := decide (e.op = .commit)

/-- The bytes of a log. -/
def logBytes (p : Prost) (es : List WalEntry) : Bytes := frames p.encodeEntry es

/-- The entries up to and including the last COMMIT. -/
abbrev committedPart (es : List WalEntry) : List WalEntry := committed isCommit es

@[simp] theorem logBytes_nil : logBytes p [] = [] := rfl

@[simp] theorem logBytes_append (es es' : List WalEntry) :
    logBytes p (es ++ es') = logBytes p es ++ logBytes p es' := frames_append p.encodeEntry es es'

theorem logBytes_cons (e : WalEntry) (es : List WalEntry) :
    logBytes p (e :: es) = frame p e ++ logBytes p es := rfl

@[simp] theorem logBytes_singleton (e : WalEntry) : logBytes p [e] = frame p e := by
  rw [logBytes_cons, logBytes_nil, List.append_nil]

theorem frame_eq (e : WalEntry) :
    frame p e = beBytes 8 (p.encodeEntry e).length ++ p.encodeEntry e := rfl

theorem length_frame (e : WalEntry) : (frame p e).length = 8 + (p.encodeEntry e).length := by
  simp [frame_eq]

theorem length_le_logBytes (es : List WalEntry) : 8 * es.length ≤ (logBytes p es).length :=
  length_le_frames p.encodeEntry es

/-! ## Parsing any bytes -/

/-- The payload decodes to a COMMIT. -/
def marksCommit (p : Prost) (payload : Bytes) : Bool :=
  match p.decodeEntry payload with
  | .ok entry => isCommit entry
  | .error _ => false

/-- The entries that the payloads decode to; a payload that does not decode is skipped. -/
def decoded (p : Prost) (payloads : List Bytes) : List WalEntry :=
  payloads.filterMap fun payload => (p.decodeEntry payload).toOption

/-- The payloads up to and including the last that decodes to a COMMIT. -/
abbrev committedPayloads (p : Prost) (payloads : List Bytes) : List Bytes :=
  committed (marksCommit p) payloads

/-- The parsing state after the frames of `payloads`. -/
def parsed (p : Prost) (payloads : List Bytes) : Parsed where
  entries := decoded p payloads
  committedCount := (decoded p (committedPayloads p payloads)).length
  committedEnd := (frames id (committedPayloads p payloads)).length
  offset := (frames id payloads).length

/-- No offset that the parser computes on the frames of `payloads` and the rest `t` overflows. -/
structure NoOverflow (payloads : List Bytes) (t : Bytes) : Prop where
  frames : (frames id payloads).length < 2 ^ 64
  rest : 8 ≤ t.length → (FramedLog.frames id payloads).length + 8 + ofBe (t.take 8) < 2 ^ 64

instance (payloads : List Bytes) (t : Bytes) : Decidable (NoOverflow payloads t) :=
  decidable_of_iff ((frames id payloads).length < 2 ^ 64 ∧
    (8 ≤ t.length → (frames id payloads).length + 8 + ofBe (t.take 8) < 2 ^ 64))
    ⟨fun ⟨h, h'⟩ => ⟨h, h'⟩, fun ⟨h, h'⟩ => ⟨h, h'⟩⟩

variable {buffer t : Bytes} {done payloads : List Bytes}

theorem decoded_append (ps ps' : List Bytes) : decoded p (ps ++ ps') = decoded p ps ++ decoded p ps' :=
  List.filterMap_append

/-- A payload that decodes is one more entry. -/
theorem push_parsed {b : Bytes} {entry : WalEntry} (h : p.decodeEntry b = .ok entry) :
    (parsed p done).push entry (frames id (done ++ [b])).length = parsed p (done ++ [b]) := by
  have hdec : decoded p (done ++ [b]) = decoded p done ++ [entry] := by
    rw [decoded_append]
    simp [decoded, h, Except.toOption]
  have hmark : marksCommit p b = isCommit entry := by
    unfold marksCommit
    rw [h]
  unfold Parsed.push parsed
  dsimp only
  by_cases hc : entry.op = .commit
  · have hcommit : isCommit entry = true := by simp [isCommit, hc]
    rw [if_pos hc, hdec]
    simp only [committedPayloads, committed_concat_mark _ (hmark.trans hcommit), hdec]
  · have hother : isCommit entry = false := by simp [isCommit, hc]
    rw [if_neg hc, hdec]
    simp only [committedPayloads, committed_concat_other _ (hmark.trans hother)]

/-- A payload that does not decode only moves the offset. -/
theorem skip_parsed {b : Bytes} {msg : String} (h : p.decodeEntry b = .error msg) :
    { parsed p done with offset := (frames id (done ++ [b])).length } = parsed p (done ++ [b]) := by
  have hdec : decoded p (done ++ [b]) = decoded p done := by
    rw [decoded_append]
    simp [decoded, h, Except.toOption]
  have hmark : marksCommit p b = false := by
    unfold marksCommit
    rw [h]
  unfold parsed
  simp only [hdec, committedPayloads, committed_concat_other _ hmark]

/-- The next frame, after those that are done. -/
theorem next_frame {b : Bytes} (hb : buffer = frames id (done ++ b :: payloads) ++ t) :
    buffer = frames id done ++ (FramedLog.frame id b ++ (frames id payloads ++ t)) := by
  rw [hb]
  simp

theorem length_frames_concat (done : List Bytes) (b : Bytes) :
    (frames id (done ++ [b])).length = (frames id done).length + 8 + b.length := by
  simp only [frames_append, frames_cons, frames_nil, List.append_nil, List.length_append, FramedLog.length_frame, id]
  omega

/-- **One round** of the loop consumes one whole frame. -/
theorem parseLoop_frame {b : Bytes} (fuel : ℕ)
    (hb : buffer = frames id (done ++ b :: payloads) ++ t) (hlen : (frames id (done ++ [b])).length < 2 ^ 64) :
    parseLoop p buffer (fuel + 1) (parsed p done) = parseLoop p buffer fuel (parsed p (done ++ [b])) := by
  have hbytes := next_frame hb
  have hblen := congrArg List.length hbytes
  simp only [List.length_append, FramedLog.length_frame, id] at hblen
  have hnext := length_frames_concat done b
  have htake : ofBe ((buffer.drop (frames id done).length).take 8) = b.length := by
    rw [hbytes, List.drop_left, ofBe_take_frame (by omega)]
  have hpay : (buffer.drop ((frames id done).length + 8)).take b.length = b := by
    rw [← List.drop_drop, hbytes, List.drop_left, FramedLog.frame, List.append_assoc,
      List.drop_left' (length_beBytes 8 _)]
    exact List.take_left
  have hoff : (parsed p done).offset = (frames id done).length := rfl
  conv => lhs; unfold parseLoop
  rw [hoff, if_pos (by omega), if_neg (by omega), htake]
  dsimp only
  rw [if_neg (by omega), if_neg (by omega), hpay, ← hnext]
  cases hdec : p.decodeEntry b with
  | ok entry =>
    dsimp only
    rw [push_parsed hdec]
  | error msg =>
    dsimp only
    rw [skip_parsed hdec]

/-- The loop stops with a panic at a frame that reaches past the last offset. -/
theorem parseLoop_overflow {b : Bytes} (fuel : ℕ) (hb : buffer = frames id (done ++ b :: payloads) ++ t)
    (hsmall : b.length < 2 ^ 64) (hlen : 2 ^ 64 ≤ (frames id (done ++ [b])).length) :
    parseLoop p buffer (fuel + 1) (parsed p done) = .error .panic := by
  have hbytes := next_frame hb
  have hblen := congrArg List.length hbytes
  simp only [List.length_append, FramedLog.length_frame, id] at hblen
  rw [length_frames_concat] at hlen
  have htake : ofBe ((buffer.drop (frames id done).length).take 8) = b.length := by
    rw [hbytes, List.drop_left, ofBe_take_frame hsmall]
  have hoff : (parsed p done).offset = (frames id done).length := rfl
  unfold parseLoop
  rw [hoff, if_pos (by omega), if_neg (by omega), htake]
  dsimp only
  rw [if_pos (by omega)]

/-- The loop stops at the rest. -/
theorem parseLoop_rest {fuel : ℕ} (hfuel : t.length ≤ fuel) (hb : buffer = frames id done ++ t)
    (ht : Incomplete t) (hdone : (frames id done).length < 2 ^ 64) :
    ∃ offset, parseLoop p buffer fuel (parsed p done) =
      if NoOverflow done t then .ok { parsed p done with offset } else .error .panic := by
  have hoff : (parsed p done).offset = (frames id done).length := rfl
  have hblen := congrArg List.length hb
  rw [List.length_append] at hblen
  by_cases h8 : 8 ≤ t.length
  · obtain ⟨fuel, rfl⟩ : ∃ n, fuel = n + 1 := ⟨fuel - 1, by omega⟩
    have htake : (buffer.drop (frames id done).length).take 8 = t.take 8 := by rw [hb, List.drop_left]
    have hlt := ht.resolve_left (by omega)
    refine ⟨(frames id done).length + 8, ?_⟩
    unfold parseLoop
    rw [hoff, if_pos (by omega), if_neg (by omega), htake]
    dsimp only
    by_cases hover : (frames id done).length + 8 + ofBe (t.take 8) < 2 ^ 64
    · rw [if_neg (by omega), if_pos (by omega), if_pos ⟨hdone, fun _ => hover⟩]
    · rw [if_pos (by omega), if_neg fun h => hover (h.rest h8)]
  · have hfits : NoOverflow done t := ⟨hdone, fun h => absurd h h8⟩
    refine ⟨(frames id done).length, ?_⟩
    rw [if_pos hfits]
    cases fuel with
    | zero => rfl
    | succ fuel =>
      unfold parseLoop
      rw [hoff]
      by_cases hlt : (frames id done).length < buffer.length
      · rw [if_pos hlt, if_pos (by omega)]
        rfl
      · rw [if_neg hlt]
        rfl

/-- **The whole loop**, on any bytes. -/
theorem parseLoop_scan {fuel : ℕ} (hfuel : payloads.length + t.length ≤ fuel)
    (hb : buffer = frames id (done ++ payloads) ++ t) (hsmall : ∀ b ∈ payloads, b.length < 2 ^ 64)
    (ht : Incomplete t) (hdone : (frames id done).length < 2 ^ 64) :
    ∃ offset, parseLoop p buffer fuel (parsed p done) =
      if NoOverflow (done ++ payloads) t then .ok { parsed p (done ++ payloads) with offset }
      else .error .panic := by
  induction payloads generalizing done fuel with
  | nil =>
    rw [List.append_nil] at hb ⊢
    exact parseLoop_rest (by simpa using hfuel) hb ht hdone
  | cons b payloads ih =>
    rw [List.length_cons] at hfuel
    obtain ⟨fuel, rfl⟩ : ∃ n, fuel = n + 1 := ⟨fuel - 1, by omega⟩
    have hsplit : done ++ b :: payloads = (done ++ [b]) ++ payloads := by simp
    by_cases hlen : (frames id (done ++ [b])).length < 2 ^ 64
    · rw [parseLoop_frame fuel hb hlen, hsplit]
      exact ih (by omega) (by rw [hb, hsplit]) (fun c hc => hsmall c (List.mem_cons_of_mem _ hc)) hlen
    · have hnot : ¬ NoOverflow (done ++ b :: payloads) t := by
        intro h
        have hlt := h.frames
        rw [hsplit, frames_append, List.length_append] at hlt
        omega
      refine ⟨0, ?_⟩
      rw [parseLoop_overflow fuel hb (hsmall b (List.mem_cons_self ..)) (by omega), if_neg hnot]

/-- **Parsing any bytes.** The entries of the payloads that decode, the number of them up to the last
COMMIT, and the offset just past that COMMIT; or a panic when an offset overflows. -/
theorem parseBuffer_splits (h : Splits buffer payloads t) :
    parseBuffer p buffer =
      if NoOverflow payloads t then
        .ok (decoded p payloads, (decoded p (committedPayloads p payloads)).length,
          (frames id (committedPayloads p payloads)).length)
      else .error .panic := by
  have h8 := length_le_frames id payloads
  have hlen := congrArg List.length h.bytes
  rw [List.length_append] at hlen
  have hstart : (⟨[], 0, 0, 0⟩ : Parsed) = parsed p [] := rfl
  obtain ⟨offset, hloop⟩ : ∃ offset, parseLoop p buffer buffer.length (parsed p []) = _ :=
    parseLoop_scan (show payloads.length + t.length ≤ buffer.length by omega) h.bytes h.lengths h.rest
      (by decide)
  rw [List.nil_append] at hloop
  unfold parseBuffer
  rw [hstart, hloop]
  split_ifs <;> rfl

/-! ## Parsing a log -/

/-- Decoding undoes encoding, for each of these entries. -/
def Undoes (p : Prost) (es : List WalEntry) : Prop := ∀ e ∈ es, p.decodeEntry (p.encodeEntry e) = .ok e

theorem Undoes.sublist {es es' : List WalEntry} (h : Undoes p es) (hsub : es'.Sublist es) : Undoes p es' :=
  fun e he => h e (hsub.subset he)

/-- The encoded entries decode to the entries. -/
theorem decoded_encoded {es : List WalEntry} (h : Undoes p es) : decoded p (es.map p.encodeEntry) = es := by
  induction es with
  | nil => rfl
  | cons e es ih =>
    have htail := ih fun e' he' => h e' (List.mem_cons_of_mem _ he')
    unfold decoded at htail ⊢
    rw [List.map_cons, List.filterMap_cons, h e (List.mem_cons_self ..), htail]
    rfl

/-- The COMMITs of encoded entries are those of the entries. -/
theorem committedPayloads_encoded {es : List WalEntry} (h : Undoes p es) :
    committedPayloads p (es.map p.encodeEntry) = (committedPart es).map p.encodeEntry := by
  induction es using List.reverseRecOn with
  | nil => rfl
  | append_singleton es e ih =>
    have hinit := ih fun e' he' => h e' (List.mem_append_left _ he')
    have hmark : marksCommit p (p.encodeEntry e) = isCommit e := by
      unfold marksCommit
      rw [h e (by simp)]
    rw [List.map_append, List.map_singleton]
    cases hc : isCommit e with
    | true =>
      rw [committedPayloads, committed_concat_mark _ (hmark.trans hc), committedPart,
        committed_concat_mark _ hc, List.map_append, List.map_singleton]
    | false =>
      rw [committedPayloads, committed_concat_other _ (hmark.trans hc), committedPart,
        committed_concat_other _ hc]
      exact hinit

theorem Prost.Lawful.undoes (hp : p.Lawful) {es : List WalEntry} (hlen : (logBytes p es).length ≤ maxVecLen) :
    Undoes p es := by
  intro e he
  obtain ⟨l, l', rfl⟩ := List.append_of_mem he
  rw [logBytes_append, logBytes_cons, List.length_append, List.length_append, length_frame] at hlen
  exact hp.entry e (by omega)

/-- The frames of a log, and the rest. -/
theorem splits_log {es : List WalEntry} (ht : Incomplete t) (hlen : (logBytes p es).length < 2 ^ 64) :
    Splits (logBytes p es ++ t) (es.map p.encodeEntry) t where
  bytes := by rw [frames_map]; rfl
  lengths b hb := by
    obtain ⟨e, he, rfl⟩ := List.mem_map.1 hb
    obtain ⟨l, l', rfl⟩ := List.append_of_mem he
    rw [logBytes_append, logBytes_cons, List.length_append, List.length_append, length_frame] at hlen
    omega
  rest := ht

/-- **Parsing undoes framing.** -/
theorem parseBuffer_log {es : List WalEntry} (hdec : Undoes p es) (ht : Incomplete t)
    (hfits : NoOverflow (es.map p.encodeEntry) t) :
    parseBuffer p (logBytes p es ++ t) =
      .ok (es, (committedPart es).length, (logBytes p (committedPart es)).length) := by
  have hlen := hfits.frames
  rw [frames_map] at hlen
  have hcom := hdec.sublist (prefix_committed isCommit es).sublist
  rw [parseBuffer_splits (splits_log ht hlen), if_pos hfits, decoded_encoded hdec,
    committedPayloads_encoded hdec, decoded_encoded hcom, frames_map]
  rfl

theorem parseBuffer_frames (hp : p.Lawful) {es : List WalEntry} {t : Bytes}
    (ht : Torn p.encodeEntry maxVecLen t) (hlen : (logBytes p es ++ t).length ≤ maxVecLen) :
    parseBuffer p (logBytes p es ++ t) =
      .ok (es, (committedPart es).length, (logBytes p (committedPart es)).length) := by
  rw [List.length_append] at hlen
  have hinc : Incomplete t := ht.incomplete _ (by unfold maxVecLen; decide)
  refine parseBuffer_log (hp.undoes (by omega)) hinc ⟨?_, fun h8 => ?_⟩
  · rw [frames_map]
    show (logBytes p es).length < _
    unfold maxVecLen at hlen
    omega
  · rw [frames_map]
    show (logBytes p es).length + 8 + _ < _
    -- the frame that was torn is a record of the log
    rcases ht with rfl | ⟨e, hle, hpre, -⟩
    · simp at h8
    · have hflen := FramedLog.length_frame p.encodeEntry e
      unfold maxVecLen at hle hlen
      rw [take_eight _ hpre h8, ofBe_beBytes_of_lt (by omega)]
      omega

end FerrumDB
