import Mathlib.Data.List.Basic
import Mathlib.Tactic.Common

/-!
# The lists that begin with a prefix are an interval

Lists over an ordered type are compared lexicographically, a proper prefix first. The lists that begin
with `p` come right after `p`: a list from `p` on that does not begin with `p` is above all that do
(`above_of_le`). So they end at the least list above all of them, if there is one: replace the last
element of `p` that is not maximal by its successor, and drop what follows (`above_concat_of_next`,
`above_concat_of_top`).
-/

namespace PrefixRange

variable {α : Type} [LT α] {a b b' : α} {p k : List α}

/-- `k` is above every list that begins with `p`. -/
def Above (p k : List α) : Prop := ∀ l, p <+: l → l < k

/-- `b'` is the successor of `b`. -/
structure Next (b b' : α) : Prop where
  lt : b < b'
  least : ∀ x, b < x → ¬ x < b'

/-- Nothing is above `b`. -/
def Top (b : α) : Prop := ∀ x, ¬ b < x

theorem not_above_cons_nil : ¬ Above (a :: p) [] := fun h => List.not_lt_nil _ (h _ (List.prefix_refl _))

variable [Std.Irrefl (fun x y : α => x < y)]

theorem not_above_nil : ¬ Above [] k := fun h => List.lt_irrefl k (h k List.nil_prefix)

theorem above_cons_cons : Above (a :: p) (b :: k) ↔ a < b ∨ a = b ∧ Above p k := by
  constructor
  · intro h
    rcases List.cons_lt_cons_iff.1 (h (a :: p) (List.prefix_refl _)) with hlt | ⟨rfl, -⟩
    · exact Or.inl hlt
    · refine Or.inr ⟨rfl, fun l hl => ?_⟩
      rcases List.cons_lt_cons_iff.1 (h (a :: l) (List.prefix_cons_inj a |>.2 hl)) with hlt | ⟨-, hlt⟩
      · exact absurd hlt (Std.Irrefl.irrefl a)
      · exact hlt
  · rintro h l hl
    obtain ⟨l, rfl⟩ := hl
    rcases h with hlt | ⟨rfl, h⟩
    · exact List.cons_lt_cons_iff.2 (Or.inl hlt)
    · exact List.cons_lt_cons_iff.2 (Or.inr ⟨rfl, h _ (List.prefix_append ..)⟩)

/-! ## Where a prefix ends -/

/-- A maximal last element: the end is that of the rest. -/
theorem above_concat_of_top (hb : Top b) : Above (p ++ [b]) k ↔ Above p k := by
  induction p generalizing k with
  | nil =>
    cases k with
    | nil => simp [not_above_cons_nil, not_above_nil]
    | cons x k => simp [above_cons_cons, not_above_nil, hb x]
  | cons a p ih =>
    cases k with
    | nil => simp [not_above_cons_nil]
    | cons x k => rw [List.cons_append, above_cons_cons, above_cons_cons, ih]

variable [Std.Asymm (fun x y : α => x < y)] [Std.Trichotomous (fun x y : α => x < y)]

/-- **The interval.** From `p` on, the lists that begin with `p` come first. -/
theorem above_of_le (hle : p ≤ k) (hne : ¬ p <+: k) : Above p k := by
  induction p generalizing k with
  | nil => exact absurd List.nil_prefix hne
  | cons a p ih =>
    cases k with
    | nil => exact absurd hle (by simp)
    | cons b k =>
      rw [above_cons_cons]
      rcases List.cons_le_cons_iff.1 hle with hlt | ⟨rfl, htail⟩
      · exact Or.inl hlt
      · exact Or.inr ⟨rfl, ih htail fun hp => hne ((List.prefix_cons_inj a).2 hp)⟩

/-- A list begins with `p` exactly if it is between `p` and all lists above those that do. -/
theorem prefix_iff : p <+: k ↔ p ≤ k ∧ ¬ Above p k :=
  ⟨fun h => ⟨h.le, fun habove => List.lt_irrefl k (habove k h)⟩,
    fun ⟨hle, hnot⟩ => by_contra fun hne => hnot (above_of_le hle hne)⟩

variable [Trans (fun x y : α => x < y) (fun x y : α => x < y) (fun x y : α => x < y)]

/-- A last element with a successor: the end is at the successor. -/
theorem above_concat_of_next (hb : Next b b') : Above (p ++ [b]) k ↔ p ++ [b'] ≤ k := by
  induction p generalizing k with
  | nil =>
    cases k with
    | nil => simp [not_above_cons_nil]
    | cons x k =>
      have hx : b < x ↔ ¬ x < b' := by
        refine ⟨hb.least x, fun hnot => ?_⟩
        rcases Std.Trichotomous.rel_or_eq_or_rel_swap (r := (· < ·)) (a := b') (b := x) with hlt | rfl | hlt
        · exact Trans.trans hb.lt hlt
        · exact hb.lt
        · exact absurd hlt hnot
      rw [List.nil_append, List.nil_append, above_cons_cons, hx, ← List.not_lt, List.cons_lt_cons_iff]
      simp [not_above_nil]
  | cons a p ih =>
    cases k with
    | nil => simp [not_above_cons_nil]
    | cons x k => rw [List.cons_append, List.cons_append, above_cons_cons, List.cons_le_cons_iff, ih]

end PrefixRange
