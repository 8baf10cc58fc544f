import Mathlib.Data.List.Basic

namespace LogoCore.ByteLanes

variable {n : ℕ}

def getLane (w : BitVec n) (k : ℕ) : BitVec 8 := (w >>> (8 * k)).setWidth 8

def setLane (w : BitVec n) (k : ℕ) (b : BitVec 8) : BitVec n :=
  (w &&& ~~~(255#n <<< (8 * k))) + (b.setWidth n <<< (8 * k))

theorem getLsbD_255 (i : ℕ) : (255#n).getLsbD i = (decide (i < n) && decide (i < 8)) := by
  rw [BitVec.getLsbD_ofNat, show 255 = 2 ^ 8 - 1 from rfl, Nat.testBit_two_pow_sub_one]

theorem getLsbD_setLane (w : BitVec n) (k : ℕ) (b : BitVec 8) {i : ℕ} (hi : i < n) :
    (setLane w k b).getLsbD i = if 8 * k ≤ i ∧ i < 8 * k + 8 then b.getLsbD (i - 8 * k) else w.getLsbD i := by
  have hzero : (w &&& ~~~(255#n <<< (8 * k))) &&& (b.setWidth n <<< (8 * k)) = 0#n := by
    apply BitVec.eq_of_getLsbD_eq
    intro j hj
    simp only [BitVec.getLsbD_and, BitVec.getLsbD_not, BitVec.getLsbD_shiftLeft, getLsbD_255, BitVec.getLsbD_setWidth,
      BitVec.getLsbD_zero]
    have := @BitVec.getLsbD_of_ge 8 b (j - 8 * k)
    grind
  rw [setLane, BitVec.add_eq_or_of_and_eq_zero _ _ hzero]
  simp only [BitVec.getLsbD_or, BitVec.getLsbD_and, BitVec.getLsbD_not, BitVec.getLsbD_shiftLeft, getLsbD_255,
    BitVec.getLsbD_setWidth]
  have := @BitVec.getLsbD_of_ge 8 b (i - 8 * k)
  grind

theorem getLsbD_getLane (w : BitVec n) (k : ℕ) {i : ℕ} (hi : i < 8) :
    (getLane w k).getLsbD i = w.getLsbD (8 * k + i) := by
  rw [getLane, BitVec.getLsbD_setWidth, BitVec.getLsbD_ushiftRight, decide_eq_true hi, Bool.true_and]

theorem getLane_setLane_self (w : BitVec n) {k : ℕ} (hk : 8 * k + 8 ≤ n) (b : BitVec 8) :
    getLane (setLane w k b) k = b := by
  apply BitVec.eq_of_getLsbD_eq
  intro i hi
  rw [getLsbD_getLane _ _ hi, getLsbD_setLane _ _ _ (by omega), if_pos (by omega), Nat.add_sub_cancel_left]

theorem getLane_setLane_other (w : BitVec n) {j k : ℕ} (hj : 8 * j + 8 ≤ n) (hjk : j ≠ k) (b : BitVec 8) :
    getLane (setLane w k b) j = getLane w j := by
  apply BitVec.eq_of_getLsbD_eq
  intro i hi
  rw [getLsbD_getLane _ _ hi, getLsbD_getLane _ _ hi, getLsbD_setLane _ _ _ (by omega), if_neg (by omega)]

end LogoCore.ByteLanes
