import Mathlib.Data.Nat.Digits.Defs

namespace LogoCore.OnesComplement

structure Same (a b : ℕ) : Prop where
  mod : a % 65535 = b % 65535
  zero : a = 0 ↔ b = 0

variable {a b c d : ℕ}

theorem Same.refl (a : ℕ) : Same a a := ⟨rfl, Iff.rfl⟩

theorem Same.symm (h : Same a b) : Same b a := ⟨h.mod.symm, h.zero.symm⟩

theorem Same.trans (h : Same a b) (h' : Same b c) : Same a c := ⟨h.mod.trans h'.mod, h.zero.trans h'.zero⟩

theorem Same.add (h : Same a b) (h' : Same c d) : Same (a + c) (b + d) := by
  have hmod := h.mod
  have hmod' := h'.mod
  have hzero := h.zero
  have hzero' := h'.zero
  exact ⟨by omega, by omega⟩

theorem Same.shift (h : Same a b) : Same (256 * a) (256 * b) := by
  have hmod := h.mod
  have hzero := h.zero
  exact ⟨by omega, by omega⟩

theorem same_shift_shift (a : ℕ) : Same (256 * (256 * a)) a := ⟨by omega, by omega⟩

theorem same_fold (a : ℕ) : Same (a / 65536 + a % 65536) a := ⟨by omega, by omega⟩

theorem same_swap (h : a < 65536) : Same (256 * (a % 256) + a / 256) (256 * a) := ⟨by omega, by omega⟩

theorem Same.eq_of_lt (h : Same a b) (ha : a < 65536) (hb : b < 65536) : a = b := by
  have hmod := h.mod
  have hzero := h.zero
  omega

theorem same_max_iff (h : Same a b) (ha : a < 65536) : a = 65535 ↔ b % 65535 = 0 ∧ b ≠ 0 := by
  have hmod := h.mod
  have hzero := h.zero
  omega

def littleEndian (bytes : List UInt8) : ℕ := Nat.ofDigits 256 (bytes.map UInt8.toNat)

@[simp] theorem littleEndian_nil : littleEndian [] = 0 := rfl

theorem littleEndian_cons (x : UInt8) (l : List UInt8) : littleEndian (x :: l) = x.toNat + 256 * littleEndian l := by
  rw [littleEndian, List.map_cons, Nat.ofDigits_cons]
  rfl

theorem same_append (l l' : List UInt8) :
    Same (littleEndian (l ++ l'))
      (littleEndian l + if l.length % 2 = 0 then littleEndian l' else 256 * littleEndian l') := by
  induction l with
  | nil =>
    rw [List.nil_append, littleEndian_nil, List.length_nil, if_pos rfl, Nat.zero_add]
    exact .refl _
  | cons x l ih =>
    have hsame := (Same.refl x.toNat).add ih.shift
    rw [List.cons_append, littleEndian_cons, littleEndian_cons, List.length_cons]
    refine hsame.trans ?_
    rw [Nat.mul_add, ← Nat.add_assoc]
    refine (Same.refl _).add ?_
    by_cases heven : l.length % 2 = 0
    · rw [if_pos heven, if_neg (by omega)]
      exact .refl _
    · rw [if_neg heven, if_pos (by omega)]
      exact same_shift_shift _

theorem not_same_of_byte (l r : List UInt8) {x y : UInt8} (hne : x ≠ y) :
    littleEndian (l ++ x :: r) % 65535 ≠ littleEndian (l ++ y :: r) % 65535 := by
  induction l with
  | nil =>
    have hx := x.toNat_lt
    have hy := y.toNat_lt
    have hxy : x.toNat ≠ y.toNat := fun h => hne (UInt8.toNat_inj.mp h)
    rw [List.nil_append, List.nil_append, littleEndian_cons, littleEndian_cons]
    omega
  | cons z l ih =>
    rw [List.cons_append, List.cons_append, littleEndian_cons, littleEndian_cons]
    omega

end LogoCore.OnesComplement
