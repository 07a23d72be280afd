import Mathlib.Data.List.Dedup
import Mathlib.Data.List.DropRight

/-!
# Least recently used

A queue of at most `cap` keys, the least recently used one in front. Using a key moves it to the back;
a key that is not in a full queue takes the place of the front. After a history of uses the queue holds
the `cap` keys used last, in the order of their last uses (`run_eq`), so that the front is the key whose
last use is oldest.
-/

namespace Lru

variable {α : Type} {cap : ℕ} {h l : List α} {x y z : α}

/-! ## The last uses -/

/-- In the history `h`, the last use of `y` comes before the last use of `z`. -/
def LastUsedBefore (h : List α) (y z : α) : Prop := ∃ h₁ h₂, h = h₁ ++ y :: h₂ ∧ y ∉ h₂ ∧ z ∈ h₂

theorem LastUsedBefore.cons (hyz : LastUsedBefore h y z) : LastUsedBefore (x :: h) y z := by
  obtain ⟨h₁, h₂, rfl, hy, hz⟩ := hyz
  exact ⟨x :: h₁, h₂, rfl, hy, hz⟩

/-! ## The last keys of a list -/

theorem rtake_append (l : List α) {m : List α} {n : ℕ} (hm : m.length = n) : (l ++ m).rtake n = m := by
  unfold List.rtake
  rw [List.length_append, hm, Nat.add_sub_cancel, List.drop_left]

theorem rtake_of_length_le {n : ℕ} (hn : l.length ≤ n) : l.rtake n = l := by
  unfold List.rtake
  rw [Nat.sub_eq_zero_of_le hn, List.drop_zero]

/-! ## The queue -/

variable [DecidableEq α]

/-- Move a key to the back. -/
def touch (l : List α) (x : α) : List α := l.erase x ++ [x]

/-- Make room for a key that is not in a full queue. -/
def makeRoom (cap : ℕ) (l : List α) (x : α) : List α := if x ∉ l ∧ cap ≤ l.length then l.tail else l

/-- The queue after a use. -/
def use (cap : ℕ) (l : List α) (x : α) : List α := touch (makeRoom cap l x) x

/-- The queue after a history of uses, the oldest first. -/
def run (cap : ℕ) (h : List α) : List α := h.foldl (use cap) []

theorem run_concat (h : List α) (x : α) : run cap (h ++ [x]) = use cap (run cap h) x := by
  simp [run]

theorem use_of_mem (hx : x ∈ l) : use cap l x = touch l x := by
  simp [use, makeRoom, hx]

theorem mem_touch : y ∈ touch l x ↔ y = x ∨ y ∈ l := by
  unfold touch
  by_cases hy : y = x
  · simp [hy]
  · simp [hy, List.mem_erase_of_ne hy]

theorem nodup_touch (hl : l.Nodup) (x : α) : (touch l x).Nodup := by
  refine List.nodup_append.2 ⟨hl.erase x, List.nodup_singleton x, fun y hy z hz => ?_⟩
  rw [List.mem_singleton.1 hz]
  rintro rfl
  exact hl.not_mem_erase hy

/-- Removing all uses of a key but the last leaves the keys in the order of their last uses. -/
theorem pairwise_dedup (h : List α) : h.dedup.Pairwise (LastUsedBefore h) := by
  induction h with
  | nil => exact .nil
  | cons x h ih =>
    by_cases hx : x ∈ h
    · rw [List.dedup_cons_of_mem hx]
      exact ih.imp LastUsedBefore.cons
    · rw [List.dedup_cons_of_notMem hx, List.pairwise_cons]
      exact ⟨fun z hz => ⟨[], h, rfl, hx, List.mem_dedup.1 hz⟩, ih.imp LastUsedBefore.cons⟩

theorem dedup_concat (h : List α) (x : α) : (h ++ [x]).dedup = touch h.dedup x := by
  unfold touch
  induction h with
  | nil => simp
  | cons a h ih =>
    rw [List.cons_append]
    by_cases ha : a ∈ h
    · rw [List.dedup_cons_of_mem ha, List.dedup_cons_of_mem (List.mem_append_left _ ha), ih]
    · rw [List.dedup_cons_of_notMem ha]
      by_cases hax : a = x
      · subst hax
        rw [List.dedup_cons_of_mem (by simp), List.erase_cons_head, ih,
          List.erase_of_not_mem (by rwa [List.mem_dedup])]
      · rw [List.dedup_cons_of_notMem (by simp [ha, hax]), List.erase_cons_tail (by simpa using hax), ih,
          List.cons_append]

/-- A use of the last keys of a longer queue. -/
theorem use_rtake (hcap : 0 < cap) (hl : l.Nodup) (x : α) : use cap (l.rtake cap) x = (touch l x).rtake cap := by
  obtain ⟨n, rfl⟩ := Nat.exists_eq_succ_of_ne_zero hcap.ne'
  unfold use touch
  rw [List.rtake_concat_succ]
  congr 1
  by_cases hlen : l.length ≤ n + 1
  · rw [rtake_of_length_le hlen]
    by_cases hx : x ∈ l
    · rw [makeRoom, if_neg fun h => h.1 hx, rtake_of_length_le]
      rw [List.length_erase_of_mem hx]
      omega
    · rw [List.erase_of_not_mem hx]
      unfold makeRoom
      split
      · next h =>
        rw [List.erase_of_not_mem fun h => hx (List.mem_of_mem_tail h), List.rtake,
          show l.length - n = 1 from by have := h.2; omega, List.drop_one]
      · next h => rw [List.erase_of_not_mem hx, rtake_of_length_le (by have := not_and.1 h hx; omega)]
  · obtain ⟨pre, suf, rfl, hsuf⟩ : ∃ pre suf, l = pre ++ suf ∧ suf.length = n + 1 :=
      ⟨l.take (l.length - (n + 1)), l.drop (l.length - (n + 1)), (List.take_append_drop ..).symm, by
        rw [List.length_drop]; omega⟩
    rw [rtake_append pre hsuf]
    by_cases hx : x ∈ suf
    · have hpre : x ∉ pre := fun h => (List.disjoint_of_nodup_append hl) h hx
      rw [makeRoom, if_neg fun h => h.1 hx, List.erase_append_right _ hpre,
        rtake_append pre (by rw [List.length_erase_of_mem hx, hsuf]; omega)]
    · have herase : (pre ++ suf).erase x = pre.erase x ++ suf := by
        by_cases hpre : x ∈ pre
        · exact List.erase_append_left suf hpre
        · rw [List.erase_append_right _ hpre, List.erase_of_not_mem hx, List.erase_of_not_mem hpre]
      have hne : suf = suf.take 1 ++ suf.tail := by rw [← List.drop_one, List.take_append_drop]
      rw [makeRoom, if_pos ⟨hx, hsuf.ge⟩, List.erase_of_not_mem fun h => hx (List.mem_of_mem_tail h), herase, hne,
        ← List.append_assoc, rtake_append _ (by rw [List.length_tail, hsuf]; rfl), ← hne]

/-- The queue holds the `cap` keys used last. -/
theorem run_eq (hcap : 0 < cap) (h : List α) : run cap h = h.dedup.rtake cap := by
  induction h using List.reverseRecOn with
  | nil => simp [run]
  | append_singleton h x ih => rw [run_concat, ih, dedup_concat, use_rtake hcap h.nodup_dedup]

theorem length_run_le (hcap : 0 < cap) (h : List α) : (run cap h).length ≤ cap := by
  rw [run_eq hcap, List.rtake, List.length_drop]
  omega

/-- The front is the key whose last use is oldest. -/
theorem pairwise_run (hcap : 0 < cap) (h : List α) : (run cap h).Pairwise (LastUsedBefore h) := by
  rw [run_eq hcap]
  exact (pairwise_dedup h).sublist (List.drop_sublist ..)

end Lru
