import Mathlib.Data.Nat.Digits.Lemmas

namespace LogoCore.Numerals

structure Denotes (base : ℕ) (ds : List ℕ) (n : ℕ) : Prop where
  nonempty : ds ≠ []
  bounded : ∀ d ∈ ds, d < base
  value : Nat.ofDigits base ds.reverse = n

structure ShortestNumeral (base : ℕ) (ds : List ℕ) (n : ℕ) : Prop extends Denotes base ds n where
  shortest : ∀ ds', Denotes base ds' n → ds.length ≤ ds'.length

def lowDigits (base n : ℕ) : List ℕ := n % base :: Nat.digits base (n / base)

section LowDigits

variable {base n : ℕ}

theorem lowDigits_last (h : n / base = 0) : lowDigits base n = [n % base] := by
  rw [lowDigits, h, Nat.digits_zero]

theorem digits_eq_lowDigits (hbase : 1 < base) (h : n ≠ 0) : Nat.digits base n = lowDigits base n :=
  Nat.digits_def' hbase (Nat.pos_of_ne_zero h)

theorem lowDigits_next (hbase : 1 < base) (h : n / base ≠ 0) :
    lowDigits base n = n % base :: lowDigits base (n / base) := by
  rw [lowDigits, digits_eq_lowDigits hbase h]

theorem lowDigits_lt (hbase : 1 < base) : ∀ d ∈ lowDigits base n, d < base := by
  rw [lowDigits, List.forall_mem_cons]
  exact ⟨Nat.mod_lt n (by omega), fun d hd => Nat.digits_lt_base hbase hd⟩

theorem ofDigits_lowDigits (base n : ℕ) : Nat.ofDigits base (lowDigits base n) = n := by
  rw [lowDigits, Nat.ofDigits_cons, Nat.ofDigits_digits]
  exact Nat.mod_add_div n base

theorem length_lowDigits_le (hbase : 1 < base) {k : ℕ} (hk : 0 < k) (hn : n < base ^ k) :
    (lowDigits base n).length ≤ k := by
  obtain ⟨k, rfl⟩ := Nat.exists_eq_succ_of_ne_zero hk.ne'
  rw [lowDigits, List.length_cons, Nat.succ_le_succ_iff, Nat.digits_length_le_iff hbase]
  apply Nat.div_lt_of_lt_mul
  rwa [← Nat.pow_succ']

theorem Denotes.lt {ds : List ℕ} (h : Denotes base ds n) (hbase : 1 < base) : n < base ^ ds.length := by
  rw [← h.value, ← List.length_reverse]
  apply Nat.ofDigits_lt_base_pow_length hbase
  intro d hd
  exact h.bounded d (List.mem_reverse.mp hd)

theorem shortestNumeral_lowDigits (hbase : 1 < base) (n : ℕ) :
    ShortestNumeral base (lowDigits base n).reverse n where
  nonempty := by simp [lowDigits]
  bounded := fun d hd => lowDigits_lt hbase d (List.mem_reverse.mp hd)
  value := by rw [List.reverse_reverse, ofDigits_lowDigits]
  shortest := by
    intro ds' h
    rw [List.length_reverse]
    exact length_lowDigits_le hbase (List.length_pos_iff.mpr h.nonempty) (h.lt hbase)

end LowDigits

end LogoCore.Numerals
