import Mathlib.Data.List.Basic
import Mathlib.Tactic.Common

/-!
# A program logic for programs that may stop

A program is an `EStateM ε σ α`: from a state it returns a value, or it stops with a reason
`ε` (an error, a panic, a crash), and in both cases the state reached is kept. `wp c s Q E`
says what holds when `c` is run from `s`: `Q` of a normal return, `E` of a stop. The stop
postcondition is what a crash leaves behind, so a proof about a program is at once a proof
about every point at which it can be cut.

1. `wp_bind`, `wp_pure`, `wp_get`, ...: the rules of the program constructors.
2. `wp.mono`, `wp.and`: consequence and conjunction.
3. `zoom`: a program on a part of the state, run on the whole.
-/

namespace CrashLogic

variable {ε σ τ α β : Type}

/-- Run from `s`, the program `c` returns with `Q`, or stops with `E`. -/
def wp (c : EStateM ε σ α) (s : σ) (Q : α → σ → Prop) (E : ε → σ → Prop) : Prop :=
  match c s with
  | .ok a s' => Q a s'
  | .error e s' => E e s'

instance {c : EStateM ε σ α} {s : σ} {Q : α → σ → Prop} {E : ε → σ → Prop}
    [∀ a s', Decidable (Q a s')] [∀ e s', Decidable (E e s')] : Decidable (wp c s Q E) :=
  match h : c s with
  | .ok a s' => decidable_of_iff (Q a s') (by simp only [wp, h])
  | .error e s' => decidable_of_iff (E e s') (by simp only [wp, h])

/-! ## Consequence -/

theorem wp.mono {c : EStateM ε σ α} {s : σ} {Q Q' : α → σ → Prop} {E E' : ε → σ → Prop}
    (h : wp c s Q E) (hQ : ∀ a s', Q a s' → Q' a s') (hE : ∀ e s', E e s' → E' e s') :
    wp c s Q' E' := by
  unfold wp at *
  cases hc : c s with
  | ok a s' => rw [hc] at h; exact hQ a s' h
  | error e s' => rw [hc] at h; exact hE e s' h

theorem wp.and {c : EStateM ε σ α} {s : σ} {Q Q' : α → σ → Prop} {E E' : ε → σ → Prop}
    (h : wp c s Q E) (h' : wp c s Q' E') :
    wp c s (fun a s' => Q a s' ∧ Q' a s') (fun e s' => E e s' ∧ E' e s') := by
  unfold wp at *
  cases hc : c s with
  | ok a s' => rw [hc] at h h'; exact ⟨h, h'⟩
  | error e s' => rw [hc] at h h'; exact ⟨h, h'⟩

/-- A program that never stops returns. -/
theorem wp.returns {c : EStateM ε σ α} {s : σ} {Q : α → σ → Prop}
    (h : wp c s Q (fun _ _ => False)) : ∃ a s', c s = .ok a s' ∧ Q a s' := by
  unfold wp at h
  cases hc : c s with
  | ok a s' => rw [hc] at h; exact ⟨a, s', rfl, h⟩
  | error e s' => rw [hc] at h; exact h.elim

/-- A program that never returns stops. -/
theorem wp.stops {c : EStateM ε σ α} {s : σ} {E : ε → σ → Prop}
    (h : wp c s (fun _ _ => False) E) : ∃ e s', c s = .error e s' ∧ E e s' := by
  unfold wp at h
  cases hc : c s with
  | ok a s' => rw [hc] at h; exact h.elim
  | error e s' => rw [hc] at h; exact ⟨e, s', rfl, h⟩

theorem wp.of_ok {c : EStateM ε σ α} {s s' : σ} {a : α} {Q : α → σ → Prop} {E : ε → σ → Prop}
    (hc : c s = .ok a s') (h : wp c s Q E) : Q a s' := by
  unfold wp at h; rw [hc] at h; exact h

theorem wp.of_error {c : EStateM ε σ α} {s s' : σ} {e : ε} {Q : α → σ → Prop} {E : ε → σ → Prop}
    (hc : c s = .error e s') (h : wp c s Q E) : E e s' := by
  unfold wp at h; rw [hc] at h; exact h

/-! ## Program constructors -/

@[simp] theorem wp_pure (a : α) (s : σ) (Q : α → σ → Prop) (E : ε → σ → Prop) :
    wp (pure a) s Q E ↔ Q a s := Iff.rfl

@[simp] theorem wp_throw (e : ε) (s : σ) (Q : α → σ → Prop) (E : ε → σ → Prop) :
    wp (throw e) s Q E ↔ E e s := Iff.rfl

@[simp] theorem wp_get (s : σ) (Q : σ → σ → Prop) (E : ε → σ → Prop) :
    wp get s Q E ↔ Q s s := Iff.rfl

@[simp] theorem wp_set (t s : σ) (Q : PUnit → σ → Prop) (E : ε → σ → Prop) :
    wp (set t) s Q E ↔ Q ⟨⟩ t := Iff.rfl

@[simp] theorem wp_modify (f : σ → σ) (s : σ) (Q : PUnit → σ → Prop) (E : ε → σ → Prop) :
    wp (modify f) s Q E ↔ Q ⟨⟩ (f s) := Iff.rfl

theorem wp_bind (c : EStateM ε σ α) (f : α → EStateM ε σ β) (s : σ) (Q : β → σ → Prop)
    (E : ε → σ → Prop) :
    wp (c >>= f) s Q E ↔ wp c s (fun a s' => wp (f a) s' Q E) E := by
  show (match EStateM.bind c f s with | .ok a s' => Q a s' | .error e s' => E e s') ↔ _
  unfold wp EStateM.bind
  cases c s <;> exact Iff.rfl

theorem wp_map (c : EStateM ε σ α) (f : α → β) (s : σ) (Q : β → σ → Prop) (E : ε → σ → Prop) :
    wp (f <$> c) s Q E ↔ wp c s (fun a s' => Q (f a) s') E := by
  show (match EStateM.map f c s with | .ok a s' => Q a s' | .error e s' => E e s') ↔ _
  unfold wp EStateM.map
  cases c s <;> exact Iff.rfl

/-- Sequencing through an intermediate assertion. -/
theorem wp.seq {c : EStateM ε σ α} {f : α → EStateM ε σ β} {s : σ} {R : α → σ → Prop}
    {Q : β → σ → Prop} {E : ε → σ → Prop} (hc : wp c s R E)
    (hf : ∀ a s', R a s' → wp (f a) s' Q E) : wp (c >>= f) s Q E :=
  (wp_bind c f s Q E).2 (hc.mono hf fun _ _ h => h)

theorem bind_ok {c : EStateM ε σ α} {f : α → EStateM ε σ β} {s s' : σ} {a : α}
    (h : c s = .ok a s') : (c >>= f) s = f a s' := by
  show EStateM.bind c f s = _
  unfold EStateM.bind; rw [h]

theorem bind_error {c : EStateM ε σ α} {f : α → EStateM ε σ β} {s s' : σ} {e : ε}
    (h : c s = .error e s') : (c >>= f) s = .error e s' := by
  show EStateM.bind c f s = _
  unfold EStateM.bind; rw [h]

/-! ## Programs on a part of the state -/

/-- Run `m` on the part of the state that `get` reads and `put` writes back. -/
def zoom (get : σ → τ) (put : τ → σ → σ) (m : EStateM ε τ α) : EStateM ε σ α := fun s =>
  match m (get s) with
  | .ok a t => .ok a (put t s)
  | .error e t => .error e (put t s)

theorem wp_zoom (get : σ → τ) (put : τ → σ → σ) (m : EStateM ε τ α) (s : σ)
    (Q : α → σ → Prop) (E : ε → σ → Prop) :
    wp (zoom get put m) s Q E ↔
      wp m (get s) (fun a t => Q a (put t s)) (fun e t => E e (put t s)) := by
  unfold wp zoom
  cases m (get s) <;> exact Iff.rfl

end CrashLogic
