import Mathlib.Data.Int.ModEq

namespace LogoCore.SequenceNumbers

/-- The 32-bit number of an absolute position of a stream whose position 0 has the number `base`. -/
def number (base : UInt32) (x : ℤ) : UInt32 := base + UInt32.ofInt x

def lt (a b : UInt32) : Bool := (a - b).toInt32 < 0

def leq (a b : UInt32) : Bool := (a - b).toInt32 ≤ 0

def gt (a b : UInt32) : Bool := 0 < (a - b).toInt32

def geq (a b : UInt32) : Bool := 0 ≤ (a - b).toInt32

def between (a b c : UInt32) : Bool := geq a b && leq a c

def Near (x y : ℤ) : Prop := -2 ^ 31 < x - y ∧ x - y < 2 ^ 31

variable {base : UInt32} {x y z : ℤ}

theorem toNat_ofInt (x : ℤ) : (UInt32.ofInt x).toNat = (x % 2 ^ 32).toNat := by
  rw [UInt32.ofInt, UInt32.toNat_ofNat']
  omega

theorem toNat_number (base : UInt32) (x : ℤ) :
    ((number base x).toNat : ℤ) = (base.toNat + x) % 2 ^ 32 := by
  rw [number, UInt32.toNat_add, toNat_ofInt]
  omega

theorem number_add (base : UInt32) (x : ℤ) (k : UInt32) : number base x + k = number base (x + k.toNat) := by
  apply UInt32.toNat_inj.mp
  have hleft := toNat_number base x
  have hright := toNat_number base (x + k.toNat)
  rw [UInt32.toNat_add]
  omega

theorem number_sub (base : UInt32) (x : ℤ) (k : UInt32) : number base x - k = number base (x - k.toNat) := by
  apply UInt32.toNat_inj.mp
  have hleft := toNat_number base x
  have hright := toNat_number base (x - k.toNat)
  have hk := k.toNat_lt
  rw [UInt32.toNat_sub]
  omega

theorem number_add_ofNat (base : UInt32) (x : ℤ) (k : ℕ) : number base x + UInt32.ofNat k = number base (x + k) := by
  apply UInt32.toNat_inj.mp
  have hleft := toNat_number base x
  have hright := toNat_number base (x + k)
  rw [UInt32.toNat_add, UInt32.toNat_ofNat']
  omega

theorem number_add_one (base : UInt32) (x : ℤ) : number base x + 1 = number base (x + 1) := number_add base x 1

theorem number_sub_one (base : UInt32) (x : ℤ) : number base x - 1 = number base (x - 1) := number_sub base x 1

theorem number_zero (base : UInt32) : number base 0 = base := by
  apply UInt32.toNat_inj.mp
  have h := toNat_number base 0
  have hlt := base.toNat_lt
  omega

theorem toNat_number_sub (base : UInt32) (x y : ℤ) :
    ((number base x - number base y).toNat : ℤ) = (x - y) % 2 ^ 32 := by
  have hx := toNat_number base x
  have hy := toNat_number base y
  rw [UInt32.toNat_sub]
  omega

theorem toNat_number_sub_of_le (base : UInt32) (hle : y ≤ x) (hlt : x - y < 2 ^ 32) :
    (number base x - number base y).toNat = (x - y).toNat := by
  have h := toNat_number_sub base x y
  omega

theorem toUInt16_number_sub (base : UInt32) (hle : y ≤ x) (hlt : x - y < 2 ^ 16) :
    (number base x - number base y).toUInt16.toNat = (x - y).toNat := by
  have h := toNat_number_sub base x y
  rw [UInt32.toNat_toUInt16]
  omega

theorem number_add_toUInt32 (base : UInt32) (x : ℤ) (k : UInt16) :
    number base x + k.toUInt32 = number base (x + k.toNat) := by
  rw [number_add, UInt16.toNat_toUInt32]

theorem toInt_number_sub (base : UInt32) (h : Near x y) :
    (number base x - number base y).toInt32.toInt = x - y := by
  have hsub := toNat_number_sub base x y
  have hcast : (2 : ℤ) ^ 32 = ((2 ^ 32 : ℕ) : ℤ) := by decide
  obtain ⟨hlow, hhigh⟩ := h
  rw [Int32.toInt, UInt32.toBitVec_toInt32, BitVec.toInt_eq_toNat_bmod, UInt32.toNat_toBitVec, hsub,
    hcast, Int.emod_bmod]
  exact Int.bmod_eq_of_le (by omega) (by omega)

theorem number_add_toInt_sub (base v : UInt32) (y : ℤ) :
    number base (y + (v - number base y).toInt32.toInt) = v := by
  have hmod : (v - number base y).toInt32.toInt % 2 ^ 32 = (v - number base y).toNat := by
    have hcast : (2 : ℤ) ^ 32 = ((2 ^ 32 : ℕ) : ℤ) := by decide
    have hlt := (v - number base y).toNat_lt
    rw [Int32.toInt, UInt32.toBitVec_toInt32, BitVec.toInt_eq_toNat_bmod, UInt32.toNat_toBitVec, hcast, Int.bmod_emod]
    omega
  have hsub := UInt32.toNat_sub v (number base y)
  have hy := toNat_number base y
  have hleft := toNat_number base (y + (v - number base y).toInt32.toInt)
  have hv := v.toNat_lt
  apply UInt32.toNat_inj.mp
  omega

theorem number_inj (h : Near x y) : number base x = number base y ↔ x = y := by
  constructor
  · intro heq
    have hsub := toInt_number_sub base h
    rw [heq, UInt32.sub_self] at hsub
    have hzero : (0 : UInt32).toInt32.toInt = 0 := by decide
    omega
  · rintro rfl
    rfl

theorem lt_number (h : Near x y) : lt (number base x) (number base y) = decide (x < y) := by
  rw [lt, decide_eq_decide, Int32.lt_iff_toInt_lt, toInt_number_sub base h, Int32.toInt_zero]
  omega

theorem leq_number (h : Near x y) : leq (number base x) (number base y) = decide (x ≤ y) := by
  rw [leq, decide_eq_decide, Int32.le_iff_toInt_le, toInt_number_sub base h, Int32.toInt_zero]
  omega

theorem gt_number (h : Near x y) : gt (number base x) (number base y) = decide (y < x) := by
  rw [gt, decide_eq_decide, Int32.lt_iff_toInt_lt, toInt_number_sub base h, Int32.toInt_zero]
  omega

theorem geq_number (h : Near x y) : geq (number base x) (number base y) = decide (y ≤ x) := by
  rw [geq, decide_eq_decide, Int32.le_iff_toInt_le, toInt_number_sub base h, Int32.toInt_zero]
  omega

theorem between_number (hxy : Near x y) (hxz : Near x z) :
    between (number base x) (number base y) (number base z) = decide (y ≤ x ∧ x ≤ z) := by
  rw [between, geq_number hxy, leq_number hxz, Bool.decide_and]

end LogoCore.SequenceNumbers
