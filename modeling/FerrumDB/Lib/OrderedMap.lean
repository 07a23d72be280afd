import Mathlib.Data.List.Basic
import Mathlib.Data.List.Nodup
import Mathlib.Algebra.BigOperators.Group.List.Basic
import Mathlib.Algebra.GroupWithZero.Nat
import Mathlib.Tactic.Common

/-!
# Ordered finite maps: overlaying, totals, and the listing in key order

Facts about `Std.ExtTreeMap` over a key type with a lawful comparison. Byte strings are such keys:
their comparison is the lexicographic order (`LawfulOrderOrd (List α)`).

1. `getElem?_insertMany_toList`: inserting one map's listing into another overlays it.
2. `total_insert`: a sum over the entries after one insertion.
3. `pairwise_lt_toList`: the listing is strictly ascending in `<`.
-/

open Std

namespace OrderedMap

/-! ## The lexicographic order on lists -/

section Lex

variable {α : Type} [Ord α] [LT α] [LE α] [LawfulEqOrd α] [LawfulOrderOrd α] [LawfulOrderLT α]

theorem compare_list_eq_lt {a b : List α} : compare a b = .lt ↔ a < b := by
  induction a generalizing b with
  | nil => cases b <;> simp [List.compare_nil_cons]
  | cons x xs ih =>
    cases b with
    | nil => simp [List.compare_cons_nil]
    | cons y ys =>
      rw [List.compare_cons_cons, List.cons_lt_cons_iff, Ordering.then_eq_lt, ih, compare_eq_lt,
        Std.compare_eq_iff_eq]

instance lawfulOrderOrdList [TransOrd α] : LawfulOrderOrd (List α) where
  isLE_compare a b := by
    show _ ↔ ¬ b < a
    rw [← compare_list_eq_lt, OrientedOrd.eq_swap]
    cases compare b a <;> simp
  isGE_compare a b := by
    show _ ↔ ¬ a < b
    rw [← compare_list_eq_lt]
    cases compare a b <;> simp

end Lex

variable {α β : Type} [Ord α] [TransOrd α] [LawfulEqOrd α]

/-! ## Listings -/

omit [LawfulEqOrd α] in
theorem pairwise_lt_toList [LT α] [LE α] [LawfulOrderOrd α] [LawfulOrderLT α]
    (m : ExtTreeMap α β compare) : m.toList.Pairwise (fun a b => a.1 < b.1) :=
  m.ordered_keys_toList.imp fun h => compare_eq_lt.1 h

omit [TransOrd α] [LawfulEqOrd α] [Ord α] in
/-- Strictly ascending listings of the same pairs are equal. -/
theorem eq_of_mem_iff [LT α] [LE α] [Ord α] [TransOrd α] [LawfulOrderOrd α] [LawfulOrderLT α]
    {l l' : List (α × β)} (h : l.Pairwise fun x y => x.1 < y.1) (h' : l'.Pairwise fun x y => x.1 < y.1)
    (hmem : ∀ x, x ∈ l ↔ x ∈ l') : l = l' := by
  have hirrefl : ∀ x : α × β, ¬ x.1 < x.1 := fun x hx => by
    have hlt := compare_eq_lt.2 hx
    rw [compare_self] at hlt
    cases hlt
  have hne : ∀ {a b : α × β}, a.1 < b.1 → a ≠ b := by
    rintro a _ hlt rfl
    exact hirrefl a hlt
  have hnodup : ∀ {l : List (α × β)}, (l.Pairwise fun x y => x.1 < y.1) → l.Nodup := fun hl => hl.imp hne
  have hasymm : ∀ a b : α × β, a ∈ l → b ∈ l' → a.1 < b.1 → b.1 < a.1 → a = b := fun a b _ _ hab hba => by
    have hlt := compare_eq_lt.2 hab
    rw [OrientedOrd.eq_swap, compare_eq_lt.2 hba] at hlt
    cases hlt
  exact List.Perm.eq_of_pairwise hasymm h h' ((List.perm_ext_iff_of_nodup (hnodup h) (hnodup h')).2 hmem)

theorem nodup_toList (m : ExtTreeMap α β compare) : m.toList.Nodup :=
  m.distinct_keys_toList.imp fun h e => h (by rw [e]; exact compare_self)

/-- **Overlay.** Inserting the whole of `m'` into `m` gives `m'` where it is defined, `m` elsewhere. -/
theorem getElem?_insertMany_toList (m m' : ExtTreeMap α β compare) (k : α) :
    (m.insertMany m'.toList)[k]? = (m'[k]?).or m[k]? := by
  let _ : BEq α := ⟨fun a b => compare a b == .eq⟩
  have _ : LawfulBEqCmp (compare : α → α → Ordering) := ⟨fun {a b} => by
    show _ ↔ (compare a b == .eq) = true
    rw [beq_iff_eq]⟩
  cases hk : m'[k]? with
  | some v =>
    rw [Option.some_or]
    exact ExtTreeMap.getElem?_insertMany_list_of_mem compare_self m'.distinct_keys_toList
      (ExtTreeMap.mem_toList_iff_getElem?_eq_some.2 hk)
  | none =>
    rw [Option.none_or, ExtTreeMap.getElem?_insertMany_list_of_contains_eq_false]
    rw [ExtTreeMap.map_fst_toList_eq_keys, List.contains_eq_any_beq, List.any_eq_false]
    intro a ha hka
    have hak : k = a := Std.compare_eq_iff_eq.1 (LawfulBEqCmp.compare_eq_iff_beq.2 hka)
    subst hak
    have hmem : k ∈ m' := by simpa using ha
    rw [ExtTreeMap.getElem?_eq_some_getElem hmem] at hk
    cases hk

/-! ## Totals -/

/-- The sum of `f` over the entries of a map. -/
def total (f : α → β → ℕ) (m : ExtTreeMap α β compare) : ℕ :=
  (m.toList.map fun e => f e.1 e.2).sum

variable {f : α → β → ℕ} {m : ExtTreeMap α β compare} {k : α} {v : β}

omit [LawfulEqOrd α] in
theorem total_of_perm {l : List (α × β)} (h : l.Perm m.toList) :
    total f m = (l.map fun e => f e.1 e.2).sum :=
  ((h.map _).sum_nat).symm

theorem toList_insert_perm_of_none (h : m[k]? = none) :
    ((k, v) :: m.toList).Perm (m.insert k v).toList := by
  have hnot : (k, v) ∉ m.toList := by
    rw [ExtTreeMap.mem_toList_iff_getElem?_eq_some, h]; simp
  refine (List.perm_ext_iff_of_nodup (List.nodup_cons.2 ⟨hnot, nodup_toList m⟩)
    (nodup_toList _)).2 fun e => ?_
  obtain ⟨a, b⟩ := e
  rw [List.mem_cons, ExtTreeMap.mem_toList_iff_getElem?_eq_some,
    ExtTreeMap.mem_toList_iff_getElem?_eq_some, ExtTreeMap.getElem?_insert]
  by_cases hk : k = a
  · subst hk; simp [h, eq_comm]
  · rw [if_neg (by simpa using hk)]
    simp [Ne.symm hk]

theorem erase_perm_of_some {w : β} (h : m[k]? = some w) :
    ((k, w) :: (m.erase k).toList).Perm m.toList := by
  have hnot : (k, w) ∉ (m.erase k).toList := by
    rw [ExtTreeMap.mem_toList_iff_getElem?_eq_some, ExtTreeMap.getElem?_erase_self]; simp
  refine (List.perm_ext_iff_of_nodup (List.nodup_cons.2 ⟨hnot, nodup_toList _⟩)
    (nodup_toList _)).2 fun e => ?_
  obtain ⟨a, b⟩ := e
  rw [List.mem_cons, ExtTreeMap.mem_toList_iff_getElem?_eq_some,
    ExtTreeMap.mem_toList_iff_getElem?_eq_some, ExtTreeMap.getElem?_erase]
  by_cases hk : k = a
  · subst hk; simp [h, eq_comm]
  · rw [if_neg (by simpa using hk)]
    simp [Ne.symm hk]

/-- A fresh key adds its own share. -/
theorem total_insert_of_none (h : m[k]? = none) : total f (m.insert k v) = total f m + f k v := by
  rw [total_of_perm (toList_insert_perm_of_none h)]
  simp [total, Nat.add_comm]

/-- Replacing an entry exchanges its share for the new one. -/
theorem total_insert_of_some {w : β} (h : m[k]? = some w) :
    total f (m.insert k v) + f k w = total f m + f k v := by
  have he : (m.erase k).insert k v = m.insert k v := by
    apply ExtTreeMap.ext_getElem?
    intro a
    simp only [ExtTreeMap.getElem?_insert, ExtTreeMap.getElem?_erase]
    split <;> rfl
  have h1 : total f m = total f (m.erase k) + f k w := by
    rw [total_of_perm (erase_perm_of_some h)]; simp [total, Nat.add_comm]
  rw [← he, total_insert_of_none ExtTreeMap.getElem?_erase_self, h1]
  omega

theorem le_total {w : β} (h : m[k]? = some w) : f k w ≤ total f m := by
  rw [total_of_perm (erase_perm_of_some h)]; simp

omit [LawfulEqOrd α] in
@[simp] theorem total_empty : total f (∅ : ExtTreeMap α β compare) = 0 := by
  have h : (∅ : ExtTreeMap α β compare).toList = [] := ExtTreeMap.toList_eq_nil_iff.2 rfl
  rw [total, h]; rfl

end OrderedMap
