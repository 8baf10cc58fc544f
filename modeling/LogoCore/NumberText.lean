import LogoCore.WString

namespace LogoCore.Strings

open CStrings

theorem digit_ne_zero {i : ℕ} (h : i < 36) : digit i ≠ 0 := by
  have hall : ∀ i < 36, digit i ≠ 0 := by decide
  exact hall i h

theorem digits_nulFree {radix : ℕ} (h1 : 1 < radix) (h2 : radix ≤ 36) (v : ℕ) : NulFree (digits radix v) := by
  have hdigit (w : ℕ) : digit (w % radix) ≠ 0 :=
    digit_ne_zero (lt_of_lt_of_le (Nat.mod_lt w (by omega)) h2)
  fun_induction digits radix v with
  | case1 v h ih => exact List.forall_mem_cons.mpr ⟨hdigit v, ih⟩
  | case2 v h => exact List.forall_mem_cons.mpr ⟨hdigit v, nulFree_nil⟩

theorem length_digits_le {radix : ℕ} (h1 : 1 < radix) {v n : ℕ} (hv : v < 2 ^ (n + 1)) :
    (digits radix v).length ≤ n + 1 := by
  induction n generalizing v with
  | zero =>
    rw [digits, dif_neg (fun h => h.2 (Nat.div_eq_of_lt (by omega)))]
    simp
  | succ n ih =>
    rw [digits]
    split
    · have hdiv : v / radix < 2 ^ (n + 1) := by
        refine Nat.div_lt_of_lt_mul (lt_of_lt_of_le hv ?_)
        rw [Nat.pow_succ, Nat.mul_comm]
        exact Nat.mul_le_mul_right _ h1
      have := ih hdiv
      simp only [List.length_cons]
      omega
    · simp

structure Rendered (c : List UInt8) : Prop where
  nulFree : NulFree c
  short : c.length ≤ 33

theorem ultoa_rendered {v radix : ℕ} {c : List UInt8} (hv : v < 2 ^ 32) (h : ultoa v radix = some c) :
    Rendered c := by
  unfold ultoa at h
  split at h
  · cases h
  · obtain rfl := Option.some.inj h
    have hlen : (digits radix v).length ≤ 31 + 1 := length_digits_le (by omega) hv
    refine ⟨fun b hb => digits_nulFree (by omega) (by omega) v b (List.mem_reverse.mp hb), ?_⟩
    rw [List.length_reverse]
    omega

theorem ltoa_rendered {v : ℤ} {radix : ℕ} {c : List UInt8} (h : ltoa v radix = some c) : Rendered c := by
  have hmod (w : ℤ) : (w % 2 ^ 32).toNat < 2 ^ 31 * 2 := by omega
  unfold ltoa at h
  split at h
  · cases h
  · rename_i hradix
    have hdigits (w : ℤ) : NulFree (digits radix (w % 2 ^ 32).toNat).reverse :=
      fun b hb => digits_nulFree (by omega) (by omega) _ b (List.mem_reverse.mp hb)
    have hlen (w : ℤ) : (digits radix (w % 2 ^ 32).toNat).length ≤ 31 + 1 :=
      length_digits_le (by omega) (by rw [Nat.pow_succ]; exact hmod w)
    split at h <;> obtain rfl := Option.some.inj h
    · refine ⟨List.forall_mem_cons.mpr ⟨by decide, hdigits _⟩, ?_⟩
      have := hlen (-v)
      simp only [List.length_cons, List.length_reverse]
      omega
    · refine ⟨hdigits _, ?_⟩
      have := hlen v
      rw [List.length_reverse]
      omega

theorem Number.render_rendered {n : Number} {base : ℕ} {c : List UInt8} (h : n.render base = some c) :
    Rendered c := by
  cases n with
  | uchar v => exact ultoa_rendered (by have := v.toNat_lt; omega) h
  | int v => exact ltoa_rendered h
  | uint v => exact ultoa_rendered v.toNat_lt h
  | long v => exact ltoa_rendered h
  | ulong v => exact ultoa_rendered v.toNat_lt h

theorem Number.renderDecimal_rendered {n : Number} {c : List UInt8} (h : n.renderDecimal = some c) : Rendered c := by
  cases n <;> simp only [Number.renderDecimal, itoa, utoa] at h
  case uchar v => exact ltoa_rendered h
  case int v => exact ltoa_rendered h
  case uint v => exact ultoa_rendered v.toNat_lt h
  case long v => exact ltoa_rendered h
  case ulong v => exact ultoa_rendered v.toNat_lt h

end LogoCore.Strings
