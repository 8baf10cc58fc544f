import Mathlib.Dynamics.FixedPoints.Basic

namespace LogoCore.Iteration

variable {σ : Type*} {f : σ → σ}

theorem exists_iterate_of_decreasing {I D : σ → Prop} (μ : σ → ℕ) (hI : ∀ s, I s → I (f s))
    (hμ : ∀ s, I s → ¬ D s → μ (f s) < μ s) {s : σ} (h : I s) : ∃ n, D (f^[n] s) := by
  induction hn : μ s using Nat.strong_induction_on generalizing s with
  | _ n ih =>
    by_cases hD : D s
    · exact ⟨0, hD⟩
    · obtain ⟨m, hm⟩ := ih (μ (f s)) (hn ▸ hμ s h hD) (hI s h) rfl
      exact ⟨m + 1, hm⟩

theorem iterate_of_stutter {r : σ → σ} {C : σ → Prop} (hstep : ∀ s, C s → r (f s) = r s ∨ r (f s) = f (r s))
    {s : σ} (n : ℕ) (hC : ∀ i < n, C (f^[i] s)) : ∃ m ≤ n, r (f^[n] s) = f^[m] (r s) := by
  induction n with
  | zero => exact ⟨0, le_rfl, rfl⟩
  | succ n ih =>
    obtain ⟨m, hm, heq⟩ := ih fun i hi => hC i (by omega)
    rw [Function.iterate_succ_apply']
    obtain h | h := hstep _ (hC n (by omega))
    · exact ⟨m, by omega, h.trans heq⟩
    · refine ⟨m + 1, by omega, ?_⟩
      rw [h, heq, Function.iterate_succ_apply']

theorem iterate_eq_of_fixed {s : σ} {n : ℕ} (h : Function.IsFixedPt f (f^[n] s)) {m : ℕ} (hm : n ≤ m) :
    f^[m] s = f^[n] s := by
  obtain ⟨k, rfl⟩ := Nat.exists_eq_add_of_le' hm
  rw [Function.iterate_add_apply]
  exact h.iterate k

end LogoCore.Iteration
