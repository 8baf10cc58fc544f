import LogoCore.CStrings

namespace LogoCore.CStrings

def strncmp : ℕ → (ℕ → UInt8) → (ℕ → UInt8) → ℤ × ℕ
  | 0, _, _ => (0, 0)
  | n + 1, as, bs =>
    if as 0 ≠ bs 0 then ((as 0).toNat - (bs 0).toNat, 1)
    else if as 0 = 0 then (0, 1)
    else
      let r := strncmp n (fun i => as (i + 1)) (fun i => bs (i + 1))
      (r.1, r.2 + 1)

def Reached (as bs : ℕ → UInt8) (j : ℕ) : Prop := ∀ i < j, as i = bs i ∧ as i ≠ 0

section Strncmp

variable {as bs : ℕ → UInt8}

theorem reached_zero : Reached as bs 0 := fun i hi => absurd hi (Nat.not_lt_zero i)

theorem reached_succ {j : ℕ} : Reached as bs (j + 1) ↔
    (as 0 = bs 0 ∧ as 0 ≠ 0) ∧ Reached (fun i => as (i + 1)) (fun i => bs (i + 1)) j := by
  constructor
  · intro h
    exact ⟨h 0 (Nat.succ_pos j), fun i hi => h (i + 1) (Nat.succ_lt_succ hi)⟩
  · rintro ⟨hzero, h⟩ i hi
    cases i with
    | zero => exact hzero
    | succ i => exact h i (Nat.lt_of_succ_lt_succ hi)

theorem strncmp_eq_zero_iff (n : ℕ) :
    (strncmp n as bs).1 = 0 ↔ ∀ j < n, Reached as bs j → as j = bs j := by
  induction n generalizing as bs with
  | zero => exact ⟨fun _ j hj => absurd hj (Nat.not_lt_zero j), fun _ => rfl⟩
  | succ n ih =>
    rw [strncmp]
    split
    · rename_i hne
      have hdiff : ((as 0).toNat : ℤ) - (bs 0).toNat ≠ 0 := fun h => hne (UInt8.toNat_inj.mp (by omega))
      exact ⟨fun h => absurd h hdiff, fun h => absurd (h 0 (Nat.succ_pos n) reached_zero) hne⟩
    · rename_i heq
      have heq := not_not.mp heq
      split
      · rename_i hnul
        refine ⟨fun _ j _ hj => ?_, fun _ => rfl⟩
        cases j with
        | zero => exact heq
        | succ j => exact absurd hnul (reached_succ.mp hj).1.2
      · rename_i hnul
        rw [ih]
        constructor
        · intro h j hj hreached
          cases j with
          | zero => exact heq
          | succ j => exact h j (Nat.lt_of_succ_lt_succ hj) (reached_succ.mp hreached).2
        · intro h j hj hreached
          exact h (j + 1) (Nat.succ_lt_succ hj) (reached_succ.mpr ⟨⟨heq, hnul⟩, hreached⟩)

theorem lt_strncmp_iff (n j : ℕ) : j < (strncmp n as bs).2 ↔ j < n ∧ Reached as bs j := by
  induction n generalizing as bs j with
  | zero => exact ⟨fun h => absurd h (Nat.not_lt_zero j), fun h => absurd h.1 (Nat.not_lt_zero j)⟩
  | succ n ih =>
    cases j with
    | zero =>
      refine ⟨fun _ => ⟨Nat.succ_pos n, reached_zero⟩, fun _ => ?_⟩
      rw [strncmp]
      split
      · exact Nat.one_pos
      · split
        · exact Nat.one_pos
        · exact Nat.succ_pos _
    | succ j =>
      rw [reached_succ, strncmp]
      split
      · rename_i hne
        exact ⟨fun h => absurd h (by omega), fun h => absurd h.2.1.1 hne⟩
      · rename_i heq
        split
        · rename_i hnul
          exact ⟨fun h => absurd h (by omega), fun h => absurd hnul h.2.1.2⟩
        · rename_i hnul
          simp only [Nat.succ_lt_succ_iff, ih, not_not.mp heq, true_and]
          rw [not_not.mp heq] at hnul
          simp only [ne_eq, hnul, not_false_eq_true, true_and]

end Strncmp

end LogoCore.CStrings
