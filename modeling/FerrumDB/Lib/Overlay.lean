import Mathlib.Data.List.Basic
import Mathlib.Tactic.Common

/-!
# Layered maps with deletion markers

A key is looked up in a stack of partial maps, newest first: the first layer that mentions it
answers. An entry is live when `live` gives it a value; an entry that is not live is a deletion
marker, which answers "absent" and hides the layers below.

1. `first_append`, `first_eq_none_iff`, `first_sublist`, `first_filter`: the first answer of a stack.
2. `resolve_merge`: a full merge without its markers may replace the bottom of a stack.
3. `resolve_merge_over_iff`: what such a merge on top of some surviving old layers resolves to.
-/

namespace Overlay

variable {K E V : Type}

/-- The answer of the newest layer that mentions `k`. -/
def first : List (K → Option E) → K → Option E
  | [], _ => none
  | l :: ls, k => (l k).or (first ls k)

/-- The value a stack gives to `k`: that of its first answer, if it is live. -/
def resolve (live : E → Option V) (ls : List (K → Option E)) (k : K) : Option V :=
  (first ls k).bind live

variable {live : E → Option V} {ls sv top : List (K → Option E)} {k : K}

@[simp] theorem first_nil : first ([] : List (K → Option E)) k = none := rfl

@[simp] theorem first_cons (l : K → Option E) : first (l :: ls) k = (l k).or (first ls k) := rfl

theorem first_append : first (top ++ ls) k = (first top k).or (first ls k) := by
  induction top with
  | nil => simp
  | cons l top ih => simp [ih, Option.or_assoc]

theorem first_eq_none_iff : first ls k = none ↔ ∀ l ∈ ls, l k = none := by
  induction ls with
  | nil => simp
  | cons l ls ih => simp [ih]

/-- A layer that answers for a stack. -/
theorem exists_of_first {a : E} (h : first ls k = some a) : ∃ l ∈ ls, l k = some a := by
  induction ls with
  | nil => cases h
  | cons l ls ih =>
    rw [first_cons] at h
    cases hl : l k with
    | some x =>
      rw [hl] at h
      exact ⟨l, List.mem_cons_self .., hl.trans h⟩
    | none =>
      rw [hl, Option.none_or] at h
      obtain ⟨l', hl', hk⟩ := ih h
      exact ⟨l', List.mem_cons_of_mem _ hl', hk⟩

/-- A stack that loses layers mentions no new key. -/
theorem first_sublist (h : sv.Sublist ls) (hn : first ls k = none) : first sv k = none :=
  first_eq_none_iff.2 fun l hl => first_eq_none_iff.1 hn l (h.subset hl)

/-- A stack answers as before while the newest layer that mentions the key is kept. -/
theorem first_filter {X : Type} {xs : List X} {f : X → K → Option E} {keep : X → Bool}
    (h : ∀ x, xs.find? (fun x => (f x k).isSome) = some x → keep x = true) :
    first ((xs.filter keep).map f) k = first (xs.map f) k := by
  induction xs with
  | nil => rfl
  | cons x xs ih =>
    cases hx : f x k with
    | some e =>
      have hkeep := h x (by simp [hx])
      simp [hkeep, hx]
    | none =>
      have hrest := ih fun y hy => h y (by simpa [hx] using hy)
      cases hkeep : keep x <;> simp [hkeep, hx, hrest]

theorem resolve_of_first_eq {ls' : List (K → Option E)} (h : first ls k = first ls' k) :
    resolve live ls k = resolve live ls' k := by
  unfold resolve; rw [h]

theorem resolve_cons_some {l : K → Option E} {e : E} (h : l k = some e) :
    resolve live (l :: ls) k = live e := by
  unfold resolve; rw [first_cons, h]; rfl

theorem resolve_cons_none {l : K → Option E} (h : l k = none) :
    resolve live (l :: ls) k = resolve live ls k := by
  unfold resolve; rw [first_cons, h, Option.none_or]

/-- Repeating the newest layer below itself changes nothing. -/
theorem resolve_cons_self (l : K → Option E) :
    resolve live (l :: l :: ls) k = resolve live (l :: ls) k := by
  apply resolve_of_first_eq
  rw [first_cons, first_cons]
  cases l k <;> rfl

/-! ## Merging -/

/-- `m` is the full merge of `ls` at `k` without deletion markers. -/
def Merges (live : E → Option V) (m : K → Option E) (ls : List (K → Option E)) (k : K) : Prop :=
  m k = (first ls k).filter fun e => (live e).isSome

theorem filter_live_bind (o : Option E) :
    (o.filter fun e => (live e).isSome).bind live = o.bind live := by
  cases o with
  | none => rfl
  | some e =>
    cases he : live e with
    | none => simp [Option.filter, he]
    | some v => simp [Option.filter, he]

/-- **A full merge may drop its markers.** Nothing lies below it that they could hide. -/
theorem resolve_merge {m : K → Option E} (hm : Merges live m ls k) :
    resolve live (top ++ [m]) k = resolve live (top ++ ls) k := by
  unfold resolve
  rw [first_append, first_append, first_cons, first_nil, Option.or_none, hm]
  cases first top k with
  | some e => rfl
  | none => rw [Option.none_or, Option.none_or, filter_live_bind]

/-- **A full merge over survivors.** With the merged layer on top of some of the layers it came
from, `k` resolves as before exactly when a key whose newest answer was a marker is not given a
value by the survivors. -/
theorem resolve_merge_over_iff {m : K → Option E} (hm : Merges live m ls k)
    (hsv : first ls k = none → first sv k = none) :
    resolve live (m :: sv) k = resolve live ls k ↔
      (∀ e, first ls k = some e → live e = none → resolve live sv k = none) := by
  unfold Merges at hm
  cases hf : first ls k with
  | none =>
    rw [hf] at hm
    rw [resolve_cons_none hm, resolve, resolve, hsv hf, hf]
    simp
  | some e =>
    cases he : live e with
    | none =>
      have hmk : m k = none := by rw [hm, hf]; simp [Option.filter, he]
      rw [resolve_cons_none hmk]
      simp [resolve, hf, he]
    | some v =>
      have hmk : m k = some e := by rw [hm, hf]; simp [Option.filter, he]
      rw [resolve_cons_some hmk]
      simp [resolve, hf, he]

end Overlay
