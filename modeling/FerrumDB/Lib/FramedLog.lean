import FerrumDB.Lib.ByteCodec
import Mathlib.Data.List.DropRight

/-!
# Length-prefixed logs and their commit marks

A record is framed as its byte length (eight big-endian bytes) followed by its bytes; a log is a
concatenation of frames. A byte prefix of a log is whole frames followed by a torn one
(`take_frames`).

Any bytes are whole frames of byte strings and an `Incomplete` rest (`exists_splits`).

Some records are commit marks. `committed mark es` is the part of `es` up to its last mark;
`Closed mark es` says that nothing follows the last mark.
-/

namespace FramedLog

open ByteCodec

variable {R : Type} (enc : R → List UInt8)

/-- One framed record. -/
def frame (e : R) : List UInt8 := beBytes 8 (enc e).length ++ enc e

/-- The bytes of a log. -/
def frames (es : List R) : List UInt8 := es.flatMap (frame enc)

/-- No bytes, or a proper byte prefix of a frame of at most `limit` bytes. -/
def Torn (limit : ℕ) (t : List UInt8) : Prop :=
  t = [] ∨ ∃ e, (frame enc e).length ≤ limit ∧ t <+: frame enc e ∧ t.length < (frame enc e).length

@[simp] theorem frames_nil : frames enc [] = [] := rfl

@[simp] theorem frames_cons (e : R) (es : List R) : frames enc (e :: es) = frame enc e ++ frames enc es :=
  rfl

@[simp] theorem frames_append (es es' : List R) :
    frames enc (es ++ es') = frames enc es ++ frames enc es' := List.flatMap_append

@[simp] theorem length_frame (e : R) : (frame enc e).length = 8 + (enc e).length := by
  simp [frame]

theorem torn_nil (limit : ℕ) : Torn enc limit [] := Or.inl rfl

/-- A log of `n` records has at least `8 n` bytes. -/
theorem length_le_frames (es : List R) : 8 * es.length ≤ (frames enc es).length := by
  induction es with
  | nil => simp
  | cons e es ih => simp only [frames_cons, List.length_append, length_frame, List.length_cons]; omega

/-- **Cutting a log.** Any byte prefix of a log is whole frames and a torn one. -/
theorem take_frames {limit : ℕ} {es : List R} (hlim : (frames enc es).length ≤ limit) (n : ℕ) :
    ∃ es₁ es₂ t, es = es₁ ++ es₂ ∧ (frames enc es).take n = frames enc es₁ ++ t ∧
      Torn enc limit t ∧ ((frames enc es).length ≤ n → es₂ = [] ∧ t = []) := by
  induction es generalizing n with
  | nil => exact ⟨[], [], [], rfl, by simp, torn_nil enc limit, fun _ => ⟨rfl, rfl⟩⟩
  | cons e es ih =>
    rw [frames_cons, List.length_append] at hlim
    by_cases hn : n < (frame enc e).length
    · -- the cut falls inside the first frame
      refine ⟨[], e :: es, (frame enc e).take n, rfl, ?_,
        Or.inr ⟨e, by omega, List.take_prefix _ _, ?_⟩, fun hle => ?_⟩
      · rw [frames_cons, List.take_append_of_le_length (by omega)]; rfl
      · rw [List.length_take]; omega
      · rw [frames_cons, List.length_append] at hle; omega
    · obtain ⟨es₁, es₂, t, hes, htake, ht, hall⟩ := ih (by omega) (n - (frame enc e).length)
      refine ⟨e :: es₁, es₂, t, by rw [hes]; rfl, ?_, ht, fun hle => hall ?_⟩
      · rw [frames_cons, List.take_append, List.take_of_length_le (by omega), htake, frames_cons,
          List.append_assoc]
      · rw [frames_cons, List.length_append] at hle; omega

/-- A byte prefix of a torn frame is a torn frame. -/
theorem Torn.take {limit : ℕ} {t : List UInt8} (h : Torn enc limit t) (n : ℕ) :
    Torn enc limit (t.take n) := by
  rcases h with rfl | ⟨e, hlim, hpre, hlt⟩
  · rw [List.take_nil]
    exact torn_nil enc limit
  · refine Or.inr ⟨e, hlim, (List.take_prefix n t).trans hpre, ?_⟩
    rw [List.length_take]
    omega

/-- **Cutting a log that ends in a torn frame.** -/
theorem take_frames_torn {limit : ℕ} {es : List R} {t : List UInt8} (ht : Torn enc limit t)
    (hlim : (frames enc es).length ≤ limit) (n : ℕ) :
    ∃ es₁ t', es₁ <+: es ∧ (frames enc es ++ t).take n = frames enc es₁ ++ t' ∧ Torn enc limit t' := by
  by_cases hn : n ≤ (frames enc es).length
  · obtain ⟨es₁, es₂, t', hes, htake, ht', -⟩ := take_frames enc hlim n
    exact ⟨es₁, t', ⟨es₂, hes.symm⟩, by rw [List.take_append_of_le_length hn, htake], ht'⟩
  · refine ⟨es, t.take (n - (frames enc es).length), List.prefix_rfl, ?_, ht.take enc _⟩
    rw [List.take_append, List.take_of_length_le (by omega)]

/-! ## Frames of arbitrary bytes -/

/-- No whole frame: fewer than the eight bytes of a length, or fewer bytes than the length says. -/
def Incomplete (t : List UInt8) : Prop := t.length < 8 ∨ t.length < 8 + ofBe (t.take 8)

theorem incomplete_nil : Incomplete [] := Or.inl (by decide)

/-- The records of a log as byte strings. -/
theorem frames_map (es : List R) : frames id (es.map enc) = frames enc es := by
  unfold frames
  rw [List.flatMap_map]
  rfl

/-- The length in front of a part of a frame. -/
theorem take_eight {e : R} {t : List UInt8} (hpre : t <+: frame enc e) (h8 : 8 ≤ t.length) :
    t.take 8 = beBytes 8 (enc e).length := by
  obtain ⟨u, hu⟩ := hpre
  have htake : (t ++ u).take 8 = t.take 8 := List.take_append_of_le_length h8
  rw [← htake, hu]
  exact List.take_left' (length_beBytes 8 _)

/-- A torn frame is incomplete. -/
theorem Torn.incomplete {limit : ℕ} {t : List UInt8} (h : Torn enc limit t) (hlim : limit < 2 ^ 64) :
    Incomplete t := by
  rcases h with rfl | ⟨e, hle, hpre, hlt⟩
  · exact incomplete_nil
  · by_cases h8 : t.length < 8
    · exact Or.inl h8
    · right
      have hlen := length_frame enc e
      rw [take_eight enc hpre (by omega), ofBe_beBytes_of_lt (by omega)]
      omega

/-- The bytes are the frames of `ps` and then no whole frame. -/
structure Splits (bs : List UInt8) (ps : List (List UInt8)) (t : List UInt8) : Prop where
  bytes : bs = frames id ps ++ t
  lengths : ∀ b ∈ ps, b.length < 2 ^ 64
  rest : Incomplete t

/-- **Splitting bytes.** Any bytes are whole frames and an incomplete one. -/
theorem exists_splits (bs : List UInt8) : ∃ ps t, Splits bs ps t := by
  induction hn : bs.length using Nat.strong_induction_on generalizing bs with
  | _ n ih =>
    by_cases hinc : Incomplete bs
    · exact ⟨[], bs, rfl, nofun, hinc⟩
    · unfold Incomplete at hinc
      rw [not_or, not_lt, not_lt] at hinc
      obtain ⟨h8, hlen⟩ := hinc
      obtain ⟨ps, t, hrest⟩ := ih (bs.drop (8 + ofBe (bs.take 8))).length
        (by rw [List.length_drop]; omega) _ rfl
      have hlt := ofBe_lt (bs.take 8)
      rw [List.length_take, Nat.min_eq_left h8] at hlt
      have hpay : ((bs.drop 8).take (ofBe (bs.take 8))).length = ofBe (bs.take 8) := by
        rw [List.length_take, List.length_drop]; omega
      have hprefix : beBytes 8 (ofBe (bs.take 8)) = bs.take 8 := by
        have h := beBytes_ofBe (bs.take 8)
        rwa [List.length_take, Nat.min_eq_left h8] at h
      refine ⟨(bs.drop 8).take (ofBe (bs.take 8)) :: ps, t, ?_, fun b hb => ?_, hrest.rest⟩
      · rw [frames_cons, frame, id, hpay, hprefix, List.append_assoc, List.append_assoc, ← hrest.bytes,
          ← List.drop_drop, List.take_append_drop, List.take_append_drop]
      · rcases List.mem_cons.1 hb with rfl | hb
        · omega
        · exact hrest.lengths b hb

/-- The length in front of a frame. -/
theorem ofBe_take_frame {b : List UInt8} (hb : b.length < 2 ^ 64) (rest : List UInt8) :
    ofBe ((frame id b ++ rest).take 8) = b.length := by
  rw [frame, List.append_assoc, List.take_left' (length_beBytes 8 _)]
  exact ofBe_beBytes_of_lt hb

/-! ## Commit marks -/

variable (mark : R → Bool)

/-- The records up to and including the last commit mark. -/
def committed (es : List R) : List R := es.rdropWhile fun e => !mark e

/-- Nothing follows the last commit mark. -/
def Closed (es : List R) : Prop := committed mark es = es

@[simp] theorem committed_nil : committed mark ([] : List R) = [] := rfl

theorem closed_nil : Closed mark ([] : List R) := rfl

theorem committed_concat_mark {e : R} (h : mark e = true) (es : List R) :
    committed mark (es ++ [e]) = es ++ [e] := by
  unfold committed
  rw [List.rdropWhile_concat_neg _ _ _ (by simp [h])]

theorem committed_concat_other {e : R} (h : mark e = false) (es : List R) :
    committed mark (es ++ [e]) = committed mark es := by
  unfold committed
  rw [List.rdropWhile_concat_pos _ _ _ (by simp [h])]

theorem closed_concat {e : R} (h : mark e = true) (es : List R) : Closed mark (es ++ [e]) :=
  committed_concat_mark mark h es

/-- Records without a mark leave the committed part alone. -/
theorem committed_append_unmarked (es : List R) {es' : List R} (h : ∀ e ∈ es', mark e = false) :
    committed mark (es ++ es') = committed mark es := by
  induction es' using List.reverseRecOn with
  | nil => rw [List.append_nil]
  | append_singleton es' e ih =>
    rw [← List.append_assoc, committed_concat_other mark (h e (by simp)),
      ih fun e he => h e (by simp [he])]

theorem prefix_committed (es : List R) : committed mark es <+: es := List.rdropWhile_prefix _ es

/-- The part up to the last mark is closed. -/
theorem closed_committed (es : List R) : Closed mark (committed mark es) := List.rdropWhile_idempotent _ es

/-- More records after a closed log. -/
theorem committed_closed_append {es : List R} (h : Closed mark es) (es' : List R) :
    committed mark (es ++ es') = es ++ committed mark es' := by
  induction es' using List.reverseRecOn with
  | nil => rw [List.append_nil, committed_nil, List.append_nil]; exact h
  | append_singleton es' e ih =>
    rw [← List.append_assoc]
    cases hm : mark e with
    | true => rw [committed_concat_mark _ hm, committed_concat_mark _ hm, List.append_assoc]
    | false => rw [committed_concat_other _ hm, committed_concat_other _ hm, ih]

end FramedLog
