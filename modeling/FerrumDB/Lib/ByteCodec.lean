import Mathlib.Data.List.Basic
import Mathlib.Tactic.Common
import Mathlib.Tactic.Ring
import Mathlib.Algebra.Order.Ring.Nat

/-!
# Fixed-width big-endian numbers and a cursor over a buffer

`beBytes w n` is the `w`-byte big-endian form of `n`, reduced modulo `256 ^ w` as a narrowing
cast does; `ofBe` reads such bytes back. A `Reader` walks a buffer with a position: `takeBytes`
hands out the next `n` bytes or fails with a fixed error.
-/

namespace ByteCodec

/-! ## Big-endian numbers -/

/-- The `w` big-endian bytes of `n`, reduced modulo `256 ^ w`. -/
def beBytes : ℕ → ℕ → List UInt8
  | 0, _ => []
  | w + 1, n => UInt8.ofNat (n / 256 ^ w) :: beBytes w n

/-- The number whose big-endian bytes are `bs`. -/
def ofBe (bs : List UInt8) : ℕ := bs.foldl (fun acc b => acc * 256 + b.toNat) 0

@[simp] theorem length_beBytes (w n : ℕ) : (beBytes w n).length = w := by
  induction w with
  | zero => rfl
  | succ w ih => simp [beBytes, ih]

theorem foldl_be (bs : List UInt8) (acc : ℕ) :
    bs.foldl (fun acc b => acc * 256 + b.toNat) acc = acc * 256 ^ bs.length + ofBe bs := by
  induction bs generalizing acc with
  | nil => simp [ofBe]
  | cons b bs ih =>
    have h0 : ofBe (b :: bs) = (b.toNat) * 256 ^ bs.length + ofBe bs := by
      show List.foldl _ (0 * 256 + b.toNat) bs = _
      rw [ih]; simp
    rw [List.foldl_cons, ih, h0, List.length_cons, pow_succ]
    ring

theorem ofBe_cons (b : UInt8) (bs : List UInt8) :
    ofBe (b :: bs) = b.toNat * 256 ^ bs.length + ofBe bs := by
  show List.foldl _ (0 * 256 + b.toNat) bs = _
  rw [foldl_be]; simp

theorem ofBe_lt (bs : List UInt8) : ofBe bs < 256 ^ bs.length := by
  induction bs with
  | nil => simp [ofBe]
  | cons b bs ih =>
    have hb : b.toNat < 256 := b.toNat_lt
    have hmul : b.toNat * 256 ^ bs.length ≤ 255 * 256 ^ bs.length :=
      Nat.mul_le_mul_right _ (Nat.le_of_lt_succ hb)
    rw [ofBe_cons, List.length_cons, pow_succ]
    omega

/-- Writing then reading reduces modulo the width. -/
theorem ofBe_beBytes (w n : ℕ) : ofBe (beBytes w n) = n % 256 ^ w := by
  induction w with
  | zero => simp [beBytes, ofBe, Nat.mod_one]
  | succ w ih =>
    have hb : (UInt8.ofNat (n / 256 ^ w)).toNat = n / 256 ^ w % 256 := by simp
    rw [beBytes, ofBe_cons, ih, hb, length_beBytes, pow_succ, Nat.mod_mul]
    ring

theorem ofBe_beBytes_of_lt {w n : ℕ} (h : n < 256 ^ w) : ofBe (beBytes w n) = n := by
  rw [ofBe_beBytes, Nat.mod_eq_of_lt h]

/-- Byte strings of one length are determined by their number. -/
theorem ofBe_inj {bs bs' : List UInt8} (hlen : bs.length = bs'.length) (h : ofBe bs = ofBe bs') :
    bs = bs' := by
  induction bs generalizing bs' with
  | nil => exact (List.length_eq_zero_iff.1 hlen.symm).symm
  | cons b bs ih =>
    cases bs' with
    | nil => simp at hlen
    | cons b' bs' =>
      rw [List.length_cons, List.length_cons, Nat.succ_inj] at hlen
      rw [ofBe_cons, ofBe_cons, hlen] at h
      have hm := ofBe_lt bs
      have hm' := ofBe_lt bs'
      rw [hlen] at hm
      have hb : b.toNat = b'.toNat := by
        have hdiv := congrArg (· / 256 ^ bs'.length) h
        have hpos : 0 < 256 ^ bs'.length := Nat.pow_pos (by decide)
        simpa only [Nat.add_comm, Nat.add_mul_div_right _ _ hpos, Nat.div_eq_of_lt hm,
          Nat.div_eq_of_lt hm', Nat.zero_add] using hdiv
      rw [hb] at h
      rw [UInt8.toNat_inj.1 hb, ih hlen (Nat.add_left_cancel h)]

/-- Reading then writing gives the bytes back. -/
theorem beBytes_ofBe (bs : List UInt8) : beBytes bs.length (ofBe bs) = bs :=
  ofBe_inj (length_beBytes _ _) (ofBe_beBytes_of_lt (ofBe_lt bs))

/-! ## Cursors -/

/-- A reader of a buffer: it gets the position and returns a value with the next position. -/
abbrev Reader (ε α : Type) := ℕ → Except ε (α × ℕ)

/-- The next `n` bytes of `buf`, or `err` when fewer are left. -/
def takeBytes {ε : Type} (err : ε) (buf : List UInt8) (n : ℕ) : Reader ε (List UInt8) := fun c =>
  if c + n > buf.length then .error err else .ok ((buf.drop c).take n, c + n)

/-- A sequence that returns comes of a part that returns. -/
theorem bind_eq_ok {ε α β : Type} {x : Except ε α} {f : α → Except ε β} {r : β} (h : x >>= f = .ok r) :
    ∃ a, x = .ok a ∧ f a = .ok r := by
  cases x with
  | error e => cases h
  | ok a => exact ⟨a, rfl, h⟩

/-- Two continuations that agree on what the first part returns. -/
theorem bind_congr_ok {ε α β : Type} {x : Except ε α} {f g : α → Except ε β}
    (h : ∀ a, x = .ok a → f a = g a) : x >>= f = x >>= g := by
  cases x with
  | error e => rfl
  | ok a => exact h a rfl

/-- A read that returns moves the cursor by what it took, within the buffer. -/
theorem takeBytes_advances {ε : Type} {err : ε} {buf bs : List UInt8} {n c c' : ℕ}
    (h : takeBytes err buf n c = .ok (bs, c')) : c' = c + n ∧ c' ≤ buf.length := by
  unfold takeBytes at h
  split at h
  · cases h
  · cases h
    exact ⟨rfl, by omega⟩

/-- At position `c` of `buf`, exactly `rest` is left to read. -/
structure Left (buf : List UInt8) (c : ℕ) (rest : List UInt8) : Prop where
  le : c ≤ buf.length
  drop : buf.drop c = rest

variable {buf bs rest : List UInt8} {c : ℕ}

theorem Left.start (buf : List UInt8) : Left buf 0 buf := ⟨Nat.zero_le _, rfl⟩

theorem Left.length (h : Left buf c rest) : c + rest.length = buf.length := by
  have hlen := congrArg List.length h.drop
  have hle := h.le
  rw [List.length_drop] at hlen
  omega

theorem Left.skip (h : Left buf c (bs ++ rest)) : Left buf (c + bs.length) rest := by
  have hlen := h.length
  rw [List.length_append] at hlen
  refine ⟨by omega, ?_⟩
  rw [← List.drop_drop, h.drop, List.drop_left]

/-- Reading the bytes ahead. -/
theorem Left.takeBytes {ε : Type} (err : ε) (h : Left buf c (bs ++ rest)) :
    takeBytes err buf bs.length c = .ok (bs, c + bs.length) := by
  have hlen := h.length
  rw [List.length_append] at hlen
  unfold ByteCodec.takeBytes
  rw [if_neg (by omega), h.drop, List.take_left]

/-- From `c` to `c'` the buffer holds `bs`. -/
structure Spans (buf : List UInt8) (c : ℕ) (bs : List UInt8) (c' : ℕ) : Prop where
  left : Left buf c (bs ++ buf.drop c')
  next : c' = c + bs.length

theorem Spans.nil (h : c ≤ buf.length) : Spans buf c [] c := ⟨⟨h, rfl⟩, rfl⟩

theorem Spans.le {c' : ℕ} (h : Spans buf c bs c') : c' ≤ buf.length := by
  have hlen := h.left.length
  rw [List.length_append] at hlen
  have hnext := h.next
  omega

/-- What is read in turn lies there in turn. -/
theorem Spans.append {bs' : List UInt8} {c' c'' : ℕ} (h : Spans buf c bs c') (h' : Spans buf c' bs' c'') :
    Spans buf c (bs ++ bs') c'' where
  left := ⟨h.left.le, by rw [h.left.drop, h'.left.drop, List.append_assoc]⟩
  next := by rw [h'.next, h.next, List.length_append, Nat.add_assoc]

/-- A read that returns hands out what lies there. -/
theorem spans_of_takeBytes {ε : Type} {err : ε} {n c' : ℕ} (h : takeBytes err buf n c = .ok (bs, c')) :
    Spans buf c bs c' ∧ bs.length = n := by
  unfold takeBytes at h
  split at h
  · cases h
  · next hle =>
    cases h
    have hlen : ((buf.drop c).take n).length = n := by rw [List.length_take, List.length_drop]; omega
    refine ⟨⟨⟨by omega, ?_⟩, by rw [hlen]⟩, hlen⟩
    rw [← List.drop_drop, List.take_append_drop]

end ByteCodec
