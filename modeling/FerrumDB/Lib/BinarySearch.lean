import Mathlib.Data.List.Basic
import Mathlib.Tactic.Common

/-!
# Binary search in a sorted list

`search cmp l` looks for an element with `cmp x = .eq`, where `cmp` compares an element with the
target. It halves the range until one element is left and returns `.ok i` at a match and
`.error i` with the insertion point otherwise. `search_spec` is its contract on a list that is
sorted for `cmp`: everything before the split point is below the target, everything after is
above it.
-/

namespace BinarySearch

variable {α : Type}

/-- The halving loop: `base` is the start of the range, `size` its length. -/
def narrow (cmp : α → Ordering) (l : List α) : ℕ → ℕ → ℕ → ℕ
  | 0, base, _ => base
  | fuel + 1, base, size =>
    if size > 1 then
      let half := size / 2
      let mid := base + half
      let base := if (l[mid]?.map cmp) = some .gt then base else mid
      narrow cmp l fuel base (size - half)
    else base

/-- Binary search: the index of a match, or the insertion point. -/
def search (cmp : α → Ordering) (l : List α) : Except ℕ ℕ :=
  if l.length = 0 then .error 0
  else
    let base := narrow cmp l l.length 0 l.length
    match l[base]?.map cmp with
    | some .eq => .ok base
    | some .lt => .error (base + 1)
    | _ => .error base

/-- The list is split at `p` by the target: below before `p`, not below from `p` on, and above
after `p`. -/
structure Split (cmp : α → Ordering) (l : List α) (p : ℕ) : Prop where
  le_length : p ≤ l.length
  below : ∀ (i : ℕ) (h : i < l.length), i < p → cmp l[i] = .lt
  notBelow : ∀ (i : ℕ) (h : i < l.length), p ≤ i → cmp l[i] ≠ .lt
  above : ∀ (i : ℕ) (h : i < l.length), p < i → cmp l[i] = .gt

variable {cmp : α → Ordering} {l : List α} {p : ℕ}

/-- The first element is not below the target, and all others are above it. -/
theorem split_zero {x : α} (hx : cmp x ≠ .lt) (habove : ∀ y ∈ l, cmp y = .gt) : Split cmp (x :: l) 0 := by
  refine ⟨Nat.zero_le _, fun i hi hip => absurd hip (Nat.not_lt_zero _), fun i hi _ => ?_, fun i hi hip => ?_⟩
  · cases i with
    | zero => exact hx
    | succ i => rw [List.getElem_cons_succ, habove _ (List.getElem_mem _)]; simp
  · cases i with
    | zero => omega
    | succ i => exact habove _ (List.getElem_mem _)

/-- A list that is strictly ascending in a key is split by every target key. -/
theorem exists_split {κ : Type} [Ord κ] [LT κ] [LE κ] [Std.LawfulOrderOrd κ] [Std.LawfulOrderLT κ]
    [Std.IsLinearOrder κ] [Std.LawfulEqOrd κ] (key : α → κ) (target : κ) {l : List α}
    (h : l.Pairwise fun a b => key a < key b) :
    ∃ p, Split (fun x => compare (key x) target) l p := by
  induction l with
  | nil => exact ⟨0, Nat.le_refl _, by simp, by simp, by simp⟩
  | cons x l ih =>
    obtain ⟨hx, hl⟩ := List.pairwise_cons.1 h
    cases hc : compare (key x) target with
    | lt =>
      obtain ⟨p, hp⟩ := ih hl
      refine ⟨p + 1, by simpa using hp.le_length, fun i hi hip => ?_, fun i hi hip => ?_,
        fun i hi hip => ?_⟩
      · cases i with
        | zero => exact hc
        | succ i => exact hp.below i (by simpa using hi) (by omega)
      · cases i with
        | zero => omega
        | succ i => exact hp.notBelow i (by simpa using hi) (by omega)
      · cases i with
        | zero => omega
        | succ i => exact hp.above i (by simpa using hi) (by omega)
    | eq =>
      have heq : key x = target := Std.compare_eq_iff_eq.1 hc
      have habove : ∀ y ∈ l, compare (key y) target = .gt := fun y hy =>
        Std.compare_eq_gt.2 (heq ▸ hx y hy)
      exact ⟨0, split_zero (by rw [hc]; nofun) habove⟩
    | gt =>
      have habove : ∀ y ∈ l, compare (key y) target = .gt := fun y hy =>
        Std.compare_eq_gt.2 (Std.lt_trans (Std.compare_eq_gt.1 hc) (hx y hy))
      exact ⟨0, split_zero (by rw [hc]; nofun) habove⟩

/-- The loop keeps the last element that is not above the target inside its range. -/
theorem narrow_spec (hs : Split cmp l p) : ∀ (fuel base size : ℕ), size ≤ fuel + 1 → 0 < size →
    base + size ≤ l.length → (base = 0 ∨ ∀ h : base < l.length, cmp l[base] ≠ .gt) →
    (∀ (i : ℕ) (h : i < l.length), base + size ≤ i → cmp l[i] = .gt) →
    ∃ b, narrow cmp l fuel base size = b ∧ b < l.length ∧
      (b = 0 ∨ ∀ h : b < l.length, cmp l[b] ≠ .gt) ∧
      ∀ (i : ℕ) (h : i < l.length), b < i → cmp l[i] = .gt := by
  intro fuel
  induction fuel with
  | zero =>
    intro base size hsz hpos hle hbase hgt
    obtain rfl : size = 1 := by omega
    exact ⟨base, rfl, by omega, hbase, fun i h hi => hgt i h hi⟩
  | succ fuel ih =>
    intro base size hsz hpos hle hbase hgt
    unfold narrow
    by_cases h1 : size > 1
    · rw [if_pos h1]
      have hhalf : 0 < size / 2 ∧ size / 2 < size := by omega
      have hmid : base + size / 2 < l.length := by omega
      have hget : l[base + size / 2]?.map cmp = some (cmp l[base + size / 2]) := by
        rw [List.getElem?_eq_getElem hmid]; rfl
      simp only [hget, Option.some.injEq]
      by_cases hc : cmp l[base + size / 2] = .gt
      · rw [if_pos hc]
        refine ih base (size - size / 2) (by omega) (by omega) (by omega) hbase ?_
        intro i h hi
        -- from the first element above the target on, every element is above it
        have hpm : p ≤ base + size / 2 := by
          by_contra hlt
          rw [hs.below _ hmid (by omega)] at hc
          cases hc
        by_cases him : i = base + size / 2
        · subst him; exact hc
        · exact hs.above i h (by omega)
      · rw [if_neg hc]
        refine ih (base + size / 2) (size - size / 2) (by omega) (by omega) (by omega)
          (Or.inr fun _ => hc) ?_
        intro i h hi
        exact hgt i h (by omega)
    · rw [if_neg h1]
      obtain rfl : size = 1 := by omega
      exact ⟨base, rfl, by omega, hbase, fun i h hi => hgt i h hi⟩

/-- **Binary search.** On a split list, a match is at the split point, and otherwise the
insertion point is the split point. -/
theorem search_spec (hs : Split cmp l p) :
    (∃ h : p < l.length, cmp l[p] = .eq ∧ search cmp l = .ok p) ∨
      ((∀ h : p < l.length, cmp l[p] = .gt) ∧ search cmp l = .error p) := by
  unfold search
  by_cases h0 : l.length = 0
  · rw [if_pos h0]
    have hp : p = 0 := by have := hs.le_length; omega
    subst hp
    exact Or.inr ⟨fun h => by omega, rfl⟩
  · rw [if_neg h0]
    obtain ⟨b, hn, hlt, hb, hgt⟩ := narrow_spec hs l.length 0 l.length (by omega) (by omega)
      (by omega) (Or.inl rfl) (fun i h hi => by omega)
    simp only [hn, List.getElem?_eq_getElem hlt, Option.map_some]
    cases hc : cmp l[b] with
    | lt =>
      right
      -- the last element that is not above is below: the target belongs right after it
      have hbp : b < p := by
        by_contra hle
        exact hs.notBelow b hlt (by omega) hc
      have hpb : p = b + 1 := by
        by_contra hne
        have hb1 : b + 1 < l.length := by have := hs.le_length; omega
        have := hgt (b + 1) hb1 (by omega)
        rw [hs.below (b + 1) hb1 (by omega)] at this
        cases this
      subst hpb
      exact ⟨fun h => hgt _ h (by omega), rfl⟩
    | eq =>
      left
      have hpb : p = b := by
        rcases Nat.lt_trichotomy b p with h | h | h
        · rw [hs.below b hlt h] at hc; cases hc
        · exact h.symm
        · rw [hs.above b hlt h] at hc; cases hc
      subst hpb
      exact ⟨hlt, hc, rfl⟩
    | gt =>
      right
      have hb0 : b = 0 := by
        rcases hb with h | h
        · exact h
        · exact absurd hc (h hlt)
      have hp0 : p = 0 := by
        by_contra hne
        rw [hs.below b hlt (by omega)] at hc; cases hc
      subst hb0 hp0
      exact ⟨fun _ => hc, rfl⟩

end BinarySearch
