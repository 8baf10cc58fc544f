import Mathlib.Data.Int.ModEq

namespace LogoCore.SignedWords

def Fits (n : ℤ) : Prop := -2 ^ 31 ≤ n ∧ n < 2 ^ 31

instance (n : ℤ) : Decidable (Fits n) := inferInstanceAs (Decidable (_ ∧ _))

def checked (n : ℤ) : Option ℤ := if Fits n then some n else none

def div (a b : ℤ) : Option ℤ := if b = 0 then none else checked (a.tdiv b)

-- a remainder is undefined where its quotient is
def rem (a b : ℤ) : Option ℤ := (div a b).map fun _ => a.tmod b

section Operations

variable {a b n : ℤ}

theorem checked_eq (h : Fits n) : checked n = some n := if_pos h

theorem fits_toInt (x : Int32) : Fits x.toInt := ⟨x.le_toInt, x.toInt_lt⟩

theorem bmod_eq_of_fits (h : Fits n) : n.bmod (2 ^ 32) = n := by
  obtain ⟨hlow, hhigh⟩ := h
  apply Int.bmod_eq_of_le <;> omega

theorem toInt_ofInt_of_fits (h : Fits n) : (Int32.ofInt n).toInt = n := by
  rw [Int32.toInt_ofInt]
  exact bmod_eq_of_fits h

theorem fits_tdiv (ha : Fits a) (hsign : 0 ≤ a ∨ 0 < b) : Fits (a.tdiv b) := by
  have hle := Int.natAbs_tdiv_le_natAbs a b
  unfold Fits at *
  obtain hnonneg | hpos := hsign
  · omega
  · by_cases hnonneg : 0 ≤ a
    · omega
    · have hneg : a.tdiv b ≤ 0 := by
        have hopposite := Int.tdiv_nonneg (show 0 ≤ -a by omega) hpos.le
        rw [Int.neg_tdiv] at hopposite
        omega
      omega

theorem div_eq (ha : Fits a) (hb : b ≠ 0) (hsign : 0 ≤ a ∨ 0 < b) : div a b = some (a.tdiv b) := by
  rw [div, if_neg hb, checked_eq (fits_tdiv ha hsign)]

theorem rem_eq (ha : Fits a) (hb : b ≠ 0) (hsign : 0 ≤ a ∨ 0 < b) : rem a b = some (a.tmod b) := by
  rw [rem, div_eq ha hb hsign, Option.map_some]

theorem tdiv_tmod_cases (a : ℤ) (hb : 0 < b) :
    b * a.tdiv b + a.tmod b = a ∧
      (0 ≤ a ∧ 0 ≤ a.tdiv b ∧ 0 ≤ a.tmod b ∧ a.tmod b < b ∨
        a < 0 ∧ a.tdiv b ≤ 0 ∧ a.tmod b ≤ 0 ∧ -b < a.tmod b) := by
  refine ⟨Int.mul_tdiv_add_tmod a b, ?_⟩
  by_cases ha : 0 ≤ a
  · exact .inl ⟨ha, Int.tdiv_nonneg ha hb.le, Int.tmod_nonneg b ha, Int.tmod_lt_of_pos a hb⟩
  · have hopposite : 0 ≤ -a := by omega
    have hdiv := Int.tdiv_nonneg hopposite hb.le
    have hmod := Int.tmod_nonneg b hopposite
    have hlt := Int.tmod_lt_of_pos (-a) hb
    rw [Int.neg_tdiv] at hdiv
    rw [Int.neg_tmod] at hmod hlt
    exact .inr ⟨by omega, by omega, by omega, by omega⟩

end Operations

end LogoCore.SignedWords
