import Mathlib.Data.List.Basic
import Mathlib.Logic.Function.Iterate
import Mathlib.Tactic.Common
import Mathlib.Tactic.Ring
import Mathlib.Algebra.Order.Ring.Nat

/-!
# Checksums by a linear feedback shift register

The register of a cyclic checksum holds `w` bits. A step shifts it down by one and adds the
polynomial if the bit that left was set; a symbol of `k` bits is added to the low end and stepped
through (`feed`). The step is linear (`step_xor`) and, for a polynomial with its top bit set, a
bijection (`step_injective`). Symbols that fit the register together act as one word (`foldl_feed`),
so two messages that differ only inside one window of `w` bits leave different registers
(`foldl_feed_separates`).
-/

namespace ShiftRegister

variable {w k : ℕ} (poly : BitVec w)

/-- One step of the register. -/
def step (x : BitVec w) : BitVec w := if x.getLsbD 0 then (x >>> 1) ^^^ poly else x >>> 1

/-- Add a symbol and step through its bits. -/
def feed (x : BitVec w) (b : BitVec k) : BitVec w := (step poly)^[k] (x ^^^ b.setWidth w)

/-- Symbols as one word, the first in the lowest bits. -/
def word : List (BitVec k) → BitVec w
  | [] => 0#w
  | b :: bs => b.setWidth w ^^^ (word bs <<< k)

/-! ## The step -/

/-- **Linearity.** -/
theorem step_xor (x y : BitVec w) : step poly (x ^^^ y) = step poly x ^^^ step poly y := by
  have hcancel : ∀ a b : BitVec w, (a ^^^ poly) ^^^ (b ^^^ poly) = a ^^^ b := by
    intro a b
    rw [BitVec.xor_comm b, BitVec.xor_assoc, ← BitVec.xor_assoc poly, BitVec.xor_self, BitVec.zero_xor]
  unfold step
  rw [BitVec.getLsbD_xor, BitVec.ushiftRight_xor_distrib]
  cases x.getLsbD 0 <;> cases y.getLsbD 0
  · rfl
  · exact BitVec.xor_assoc _ _ _
  · show ((x >>> 1) ^^^ (y >>> 1)) ^^^ poly = ((x >>> 1) ^^^ poly) ^^^ (y >>> 1)
    rw [BitVec.xor_assoc, BitVec.xor_comm (y >>> 1), ← BitVec.xor_assoc]
  · exact (hcancel _ _).symm

theorem iterate_step_xor (n : ℕ) (x y : BitVec w) :
    (step poly)^[n] (x ^^^ y) = (step poly)^[n] x ^^^ (step poly)^[n] y := by
  induction n generalizing x y with
  | zero => rfl
  | succ n ih => rw [Function.iterate_succ_apply, step_xor, ih]; rfl

variable {poly}

/-- The bit that left the register shows in its top bit. -/
theorem msb_step (hpoly : poly.msb = true) (x : BitVec w) : (step poly x).msb = x.getLsbD 0 := by
  have hpos : 0 < w := by
    cases w with
    | zero => simp [BitVec.msb, BitVec.getMsbD] at hpoly
    | succ w => exact Nat.succ_pos w
  have hshift : (x >>> 1).msb = false := by
    rw [BitVec.msb_eq_getLsbD_last, BitVec.getLsbD_ushiftRight]
    exact BitVec.getLsbD_of_ge _ _ (by omega)
  unfold step
  split
  · next h => rw [BitVec.msb_xor, hshift, hpoly, h]; rfl
  · next h => rw [hshift]; exact (Bool.eq_false_iff.2 h).symm

/-- Two registers with the same low bit and the same bits above it are equal. -/
theorem eq_of_ushiftRight_eq {x y : BitVec w} (hlow : x.getLsbD 0 = y.getLsbD 0)
    (h : x >>> 1 = y >>> 1) : x = y := by
  apply BitVec.eq_of_getLsbD_eq
  intro i _
  cases i with
  | zero => exact hlow
  | succ i =>
    have hbit := congrArg (fun z : BitVec w => z.getLsbD i) h
    simpa [BitVec.getLsbD_ushiftRight, Nat.add_comm] using hbit

/-- **Invertibility.** -/
theorem step_injective (hpoly : poly.msb = true) : Function.Injective (step poly) := by
  intro x y h
  have hlow : x.getLsbD 0 = y.getLsbD 0 := by rw [← msb_step hpoly x, ← msb_step hpoly y, h]
  refine eq_of_ushiftRight_eq hlow ?_
  unfold step at h
  rw [hlow] at h
  cases hy : y.getLsbD 0 with
  | false => rw [hy] at h; exact h
  | true => rw [hy] at h; exact (BitVec.xor_left_inj poly).1 h

/-- Without a set bit at the low end the register is only shifted. -/
theorem toNat_iterate_step {n m : ℕ} {x : BitVec w} (h : x.toNat = m * 2 ^ n) :
    ((step poly)^[n] x).toNat = m := by
  induction n generalizing x with
  | zero => simpa using h
  | succ n ih =>
    rw [Function.iterate_succ_apply]
    refine ih ?_
    have heven : x.toNat = 2 * (m * 2 ^ n) := by rw [h, pow_succ]; ring
    have hlow : x.getLsbD 0 = false := by
      rw [BitVec.getLsbD, Nat.testBit_zero, heven, Nat.mul_mod_right]; rfl
    unfold step
    rw [hlow, if_neg (by simp), BitVec.toNat_ushiftRight, Nat.shiftRight_eq_div_pow, heven, pow_one,
      Nat.mul_div_cancel_left _ (by decide)]

theorem toNat_shiftLeft_of_lt {x : BitVec w} (h : x.toNat * 2 ^ k < 2 ^ w) :
    (x <<< k).toNat = x.toNat * 2 ^ k := by
  rw [BitVec.toNat_shiftLeft, Nat.shiftLeft_eq, Nat.mod_eq_of_lt h]

/-- Stepping takes a shift back. -/
theorem iterate_step_shiftLeft {x : BitVec w} (h : x.toNat * 2 ^ k < 2 ^ w) :
    (step poly)^[k] (x <<< k) = x :=
  BitVec.eq_of_toNat_eq (toNat_iterate_step (toNat_shiftLeft_of_lt h))

/-! ## Words -/

theorem toNat_word_lt (bs : List (BitVec k)) (h : k * bs.length ≤ w) :
    (word bs : BitVec w).toNat < 2 ^ (k * bs.length) := by
  induction bs with
  | nil => exact Nat.one_pos
  | cons b bs ih =>
    rw [List.length_cons, Nat.mul_succ] at h ⊢
    have hb : (b.setWidth w).toNat < 2 ^ (k * bs.length + k) := by
      rw [BitVec.toNat_setWidth_of_le (by omega)]
      exact b.isLt.trans_le (Nat.pow_le_pow_right (by decide) (by omega))
    have hword := ih (by omega)
    have hshift : (word bs : BitVec w).toNat * 2 ^ k < 2 ^ (k * bs.length + k) := by
      rw [pow_add]
      exact Nat.mul_lt_mul_of_pos_right hword (Nat.pow_pos (by decide))
    unfold word
    rw [BitVec.toNat_xor, toNat_shiftLeft_of_lt (hshift.trans_le (Nat.pow_le_pow_right (by decide) h))]
    exact Nat.xor_lt_two_pow hb hshift

/-- A word leaves room for one more symbol. -/
theorem toNat_word_mul_lt {bs : List (BitVec k)} (h : k * bs.length + k ≤ w) :
    (word bs : BitVec w).toNat * 2 ^ k < 2 ^ w := by
  have hword := toNat_word_lt (w := w) bs (by omega)
  calc (word bs : BitVec w).toNat * 2 ^ k < 2 ^ (k * bs.length) * 2 ^ k :=
        Nat.mul_lt_mul_of_pos_right hword (Nat.pow_pos (by decide))
    _ = 2 ^ (k * bs.length + k) := (pow_add _ _ _).symm
    _ ≤ 2 ^ w := Nat.pow_le_pow_right (by decide) h

/-- A word determines its symbols. -/
theorem word_injective {bs cs : List (BitVec k)} (hlen : bs.length = cs.length)
    (h : k * bs.length ≤ w) (hword : (word bs : BitVec w) = word cs) : bs = cs := by
  induction bs generalizing cs with
  | nil => exact (List.length_eq_zero_iff.1 hlen.symm).symm
  | cons b bs ih =>
    cases cs with
    | nil => cases hlen
    | cons c cs =>
      rw [List.length_cons, List.length_cons, Nat.succ_inj] at hlen
      rw [List.length_cons, Nat.mul_succ] at h
      have hroom := toNat_word_mul_lt (w := w) h
      have hroom' : (word cs : BitVec w).toNat * 2 ^ k < 2 ^ w :=
        toNat_word_mul_lt (by rw [← hlen]; exact h)
      -- the low `k` bits are the first symbol
      have hlow : ∀ (a : BitVec k) (as : List (BitVec k)), (word as : BitVec w).toNat * 2 ^ k < 2 ^ w →
          (word (a :: as) : BitVec w).toNat % 2 ^ k = a.toNat := by
        intro a as hlt
        show (a.setWidth w ^^^ (word as <<< k)).toNat % 2 ^ k = a.toNat
        rw [BitVec.toNat_xor, toNat_shiftLeft_of_lt hlt, Nat.xor_mod_two_pow, Nat.mul_mod_left,
          Nat.xor_zero, BitVec.toNat_setWidth_of_le (by omega), Nat.mod_eq_of_lt a.isLt]
      have hfirst : b = c := by
        apply BitVec.eq_of_toNat_eq
        rw [← hlow b bs hroom, ← hlow c cs hroom', hword]
      have hrest : (word bs : BitVec w) <<< k = word cs <<< k := by
        unfold word at hword
        rw [hfirst] at hword
        exact (BitVec.xor_right_inj _).1 hword
      have hsame : (word bs : BitVec w) = word cs := by
        have hshift := congrArg BitVec.toNat hrest
        rw [toNat_shiftLeft_of_lt hroom, toNat_shiftLeft_of_lt hroom'] at hshift
        exact BitVec.eq_of_toNat_eq (Nat.eq_of_mul_eq_mul_right (Nat.pow_pos (by decide)) hshift)
      rw [hfirst, ih hlen (by omega) hsame]

/-! ## Messages -/

/-- Symbols that fit the register together are fed as one word. -/
theorem foldl_feed (bs : List (BitVec k)) (h : k * bs.length ≤ w) (x : BitVec w) :
    bs.foldl (feed poly) x = (step poly)^[k * bs.length] (x ^^^ word bs) := by
  induction bs generalizing x with
  | nil => exact (BitVec.xor_zero).symm
  | cons b bs ih =>
    rw [List.length_cons, Nat.mul_succ] at h
    have hback : (step poly)^[k] (word bs <<< k) = word bs := iterate_step_shiftLeft (toNat_word_mul_lt h)
    calc (b :: bs).foldl (feed poly) x
        = (step poly)^[k * bs.length] (feed poly x b ^^^ word bs) := ih (by omega) _
      _ = (step poly)^[k * bs.length] ((step poly)^[k] (x ^^^ b.setWidth w) ^^^
            (step poly)^[k] (word bs <<< k)) := by rw [hback]; rfl
      _ = (step poly)^[k * bs.length] ((step poly)^[k] ((x ^^^ b.setWidth w) ^^^ (word bs <<< k))) := by
            rw [← iterate_step_xor poly k]
      _ = (step poly)^[k * (b :: bs).length] (x ^^^ word (b :: bs)) := by
            rw [BitVec.xor_assoc, ← Function.iterate_add_apply, List.length_cons, Nat.mul_succ]
            rfl

theorem feed_injective (hpoly : poly.msb = true) (b : BitVec k) : Function.Injective (feed poly · b) := by
  intro x y h
  exact (BitVec.xor_left_inj _).1 ((step_injective hpoly).iterate k h)

/-- What follows a difference does not undo it. -/
theorem foldl_feed_injective (hpoly : poly.msb = true) (bs : List (BitVec k)) :
    Function.Injective (bs.foldl (feed poly) ·) := by
  induction bs with
  | nil => exact fun _ _ h => h
  | cons b bs ih => exact ih.comp (feed_injective hpoly b)

/-- **Separation.** Messages that differ only inside a window of at most `w` bits leave different
registers. -/
theorem foldl_feed_separates (hpoly : poly.msb = true) {u v : List (BitVec k)}
    (hlen : u.length = v.length) (hu : k * u.length ≤ w) (hne : u ≠ v) (pre post : List (BitVec k))
    (x : BitVec w) :
    (pre ++ u ++ post).foldl (feed poly) x ≠ (pre ++ v ++ post).foldl (feed poly) x := by
  intro h
  rw [List.foldl_append, List.foldl_append, List.foldl_append, List.foldl_append] at h
  have hwindow := foldl_feed_injective hpoly post h
  rw [foldl_feed u hu, foldl_feed v (by rw [← hlen]; exact hu), ← hlen] at hwindow
  have hwords := (step_injective hpoly).iterate _ hwindow
  exact hne (word_injective hlen hu ((BitVec.xor_right_inj _).1 hwords))

end ShiftRegister
