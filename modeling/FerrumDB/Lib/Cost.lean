import FerrumDB.Lib.CrashLogic

/-!
# The cost of programs that may stop

A counter on the state, such as a clock, says how much a program has spent. `Costs count c s k Q` bounds by `k`
what the program spends from `s`, whether it returns or stops, and says `Q` of what it returns. Costs add up
along a sequence (`Costs.bind`).
-/

namespace CrashLogic

variable {ε σ τ α β : Type} {count : σ → ℕ} {s : σ} {k k' : ℕ}

/-- Run from `s`, the program moves the counter by at most `k`, and returns with `Q` or stops. -/
def Costs (count : σ → ℕ) (c : EStateM ε σ α) (s : σ) (k : ℕ) (Q : α → σ → Prop) : Prop :=
  wp c s (fun a s' => count s' ≤ count s + k ∧ Q a s') fun _ s' => count s' ≤ count s + k

variable {c : EStateM ε σ α} {Q : α → σ → Prop}

theorem Costs.mono {Q' : α → σ → Prop} (h : Costs count c s k Q) (hk : k ≤ k') (hQ : ∀ a s', Q a s' → Q' a s') :
    Costs count c s k' Q' :=
  wp.mono h (fun a s' hq => ⟨Nat.le_trans hq.1 (Nat.add_le_add_left hk _), hQ a s' hq.2⟩) fun _ _ he =>
    Nat.le_trans he (Nat.add_le_add_left hk _)

theorem Costs.le (h : Costs count c s k Q) (hk : k ≤ k') : Costs count c s k' Q := h.mono hk fun _ _ hq => hq

theorem Costs.pure {a : α} (h : Q a s) : Costs count (pure a : EStateM ε σ α) s k Q := ⟨Nat.le_add_right _ _, h⟩

theorem Costs.throw {e : ε} : Costs count (throw e : EStateM ε σ α) s k Q := Nat.le_add_right (count s) k

theorem Costs.bind {c : EStateM ε σ β} {f : β → EStateM ε σ α} {R : β → σ → Prop} (h : Costs count c s k R)
    (hf : ∀ b s', R b s' → Costs count (f b) s' k' Q) : Costs count (c >>= f) s (k + k') Q := by
  refine (wp_bind c f s _ _).2 (wp.mono h (fun b s' hr => ?_) fun _ _ he => Nat.le_trans he (by omega))
  obtain ⟨hle, hr⟩ := hr
  exact wp.mono (hf b s' hr) (fun a t hq => ⟨Nat.le_trans hq.1 (by omega), hq.2⟩) fun _ _ he => Nat.le_trans he (by omega)

/-- A first step that spends nothing. -/
theorem Costs.step {c : EStateM ε σ β} {f : β → EStateM ε σ α} {R : β → σ → Prop} (h : Costs count c s 0 R)
    (hf : ∀ b s', R b s' → Costs count (f b) s' k Q) : Costs count (c >>= f) s k Q := by
  have hbind := h.bind hf
  rwa [Nat.zero_add] at hbind

/-- A last step that spends nothing. -/
theorem Costs.last {c : EStateM ε σ β} {f : β → EStateM ε σ α} {R : β → σ → Prop} (h : Costs count c s k R)
    (hf : ∀ b s', R b s' → Costs count (f b) s' 0 Q) : Costs count (c >>= f) s k Q := h.bind hf

/-- A program on a part of the state that has the counter. -/
theorem Costs.zoom {count' : τ → ℕ} {get : σ → τ} {put : τ → σ → σ} {m : EStateM ε τ α}
    (hget : count' (get s) = count s) (hput : ∀ t, count (put t s) = count' t)
    (h : Costs count' m (get s) k fun a t => Q a (put t s)) : Costs count (zoom get put m) s k Q := by
  refine (wp_zoom get put m s _ _).2 (wp.mono h (fun a t hq => ⟨?_, hq.2⟩) fun _ t he => ?_)
  · rw [hput, ← hget]
    exact hq.1
  · rw [hput, ← hget]
    exact he

/-- A loop whose steps cost `k` each. -/
theorem Costs.loop {f : β → EStateM ε σ PUnit} (I : σ → Prop) (l : List β)
    (step : ∀ x ∈ l, ∀ s, I s → Costs count (f x) s k fun _ s' => I s') (h : I s) :
    Costs count (forM l f) s (l.length * k) fun _ s' => I s' := by
  induction l generalizing s with
  | nil => exact .pure h
  | cons x l ih =>
    rw [List.forM_cons, List.length_cons, Nat.succ_mul, Nat.add_comm]
    refine (step x (List.mem_cons_self ..) s h).bind fun _ s' h' => ?_
    exact ih (fun y hy => step y (List.mem_cons_of_mem _ hy)) h'

end CrashLogic
