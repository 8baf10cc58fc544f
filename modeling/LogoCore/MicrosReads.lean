import LogoCore.SysTick

namespace LogoCore.Wiring

def reloadsBetween (a b : ℕ) : ℕ := b / 120000 - a / 120000

section Times

variable (turns : ℕ → Turn) (t : ℕ)

def turnStart : ℕ → ℕ
  | 0 => t
  | i + 1 => turnStart i + (turns i).first + (turns i).sample + (turns i).check

def firstRead (i : ℕ) : ℕ := turnStart turns t i + (turns i).first

def sampleRead (i : ℕ) : ℕ := firstRead turns t i + (turns i).sample

def checkRead (i : ℕ) : ℕ := sampleRead turns t i + (turns i).check

def Agrees (i : ℕ) : Prop := 2 ^ 32 ∣ reloadsBetween (firstRead turns t i) (checkRead turns t i)

/-- Some turn agrees, and in the first that does no reload that counts comes between milliseconds and the counter. -/
def Steady : Prop :=
  ∃ i, (∀ j < i, ¬ Agrees turns t j) ∧ Agrees turns t i ∧
    2 ^ 29 ∣ reloadsBetween (firstRead turns t i) (sampleRead turns t i)

def reading (i : ℕ) : Reading :=
  ⟨UInt32.ofNat (firstRead turns t i / 120000) * 1000 +
      (UInt32.ofNat 120000 - UInt32.ofNat (119999 - sampleRead turns t i % 120000)) / UInt32.ofNat 120,
    clockAt (sampleRead turns t i), clockAt (checkRead turns t i)⟩

end Times

variable {turns : ℕ → Turn} {t : ℕ}

theorem ofNat_eq_iff (a b : ℕ) : UInt32.ofNat a = UInt32.ofNat b ↔ a % 2 ^ 32 = b % 2 ^ 32 := by
  rw [← UInt32.toNat_inj, UInt32.toNat_ofNat', UInt32.toNat_ofNat']

theorem milliseconds_eq_iff {a b : ℕ} (h : a ≤ b) :
    (clockAt a).milliseconds = (clockAt b).milliseconds ↔ 2 ^ 32 ∣ reloadsBetween a b := by
  rw [clockAt_eq, clockAt_eq, ofNat_eq_iff, reloadsBetween]
  omega

theorem firstRead_le_checkRead (i : ℕ) : firstRead turns t i ≤ checkRead turns t i := by
  rw [checkRead, sampleRead]
  omega

instance (i : ℕ) : Decidable (Agrees turns t i) := inferInstanceAs (Decidable (_ ∣ _))

theorem micros_turn (n i : ℕ) :
    micros turns (n + 1) i (clockAt (turnStart turns t i)) =
      if Agrees turns t i then some (reading turns t i)
      else micros turns n (i + 1) (clockAt (turnStart turns t (i + 1))) := by
  have hagrees := milliseconds_eq_iff (firstRead_le_checkRead i : firstRead turns t i ≤ checkRead turns t i)
  have hnext : turnStart turns t (i + 1) = checkRead turns t i := rfl
  have hmillis : (clockAt (firstRead turns t i)).milliseconds = UInt32.ofNat (firstRead turns t i / 120000) := by
    rw [clockAt_eq]
  have hvalue : sysTickValueGet (clockAt (sampleRead turns t i)) =
      UInt32.ofNat (119999 - sampleRead turns t i % 120000) := by
    rw [clockAt_eq, sysTickValueGet]
  simp only [micros, tick_clockAt]
  rw [hnext, ← firstRead, ← sampleRead, ← checkRead]
  by_cases h : Agrees turns t i
  · rw [if_neg (not_not.mpr (hagrees.mpr h)), if_pos h, hmillis, hvalue]
    rfl
  · rw [if_pos (fun heq => h (hagrees.mp heq)), if_neg h]

theorem micros_eq_some_iff (n i : ℕ) (r : Reading) :
    micros turns n i (clockAt (turnStart turns t i)) = some r ↔
      ∃ k, i ≤ k ∧ k < i + n ∧ (∀ j, i ≤ j → j < k → ¬ Agrees turns t j) ∧ Agrees turns t k ∧
        r = reading turns t k := by
  induction n generalizing i with
  | zero =>
    constructor
    · intro h
      cases h
    · rintro ⟨k, hle, hlt, -⟩
      omega
  | succ n ih =>
    rw [micros_turn]
    by_cases hagrees : Agrees turns t i
    · rw [if_pos hagrees, Option.some_inj]
      constructor
      · rintro rfl
        exact ⟨i, le_refl i, by omega, fun j hle hlt => by omega, hagrees, rfl⟩
      · rintro ⟨k, hle, -, hno, -, rfl⟩
        rcases hle.eq_or_lt with rfl | hlt
        · rfl
        · exact absurd hagrees (hno i (le_refl i) hlt)
    · rw [if_neg hagrees, ih]
      constructor
      · rintro ⟨k, hle, hlt, hno, hyes, rfl⟩
        refine ⟨k, by omega, by omega, ?_, hyes, rfl⟩
        intro j hj hjk
        rcases hj.eq_or_lt with rfl | hij
        · exact hagrees
        · exact hno j hij hjk
      · rintro ⟨k, hle, hlt, hno, hyes, rfl⟩
        have hne : i ≠ k := fun h => hagrees (h ▸ hyes)
        exact ⟨k, by omega, by omega, fun j hj hjk => hno j (by omega) hjk, hyes, rfl⟩

theorem returns_iff (r : Reading) :
    Returns turns (clockAt t) r ↔
      ∃ i, (∀ j < i, ¬ Agrees turns t j) ∧ Agrees turns t i ∧ r = reading turns t i := by
  constructor
  · rintro ⟨n, hn⟩
    obtain ⟨k, -, -, hno, hyes, hr⟩ := (micros_eq_some_iff n 0 r).mp hn
    exact ⟨k, fun j hj => hno j (Nat.zero_le j) hj, hyes, hr⟩
  · rintro ⟨k, hno, hyes, hr⟩
    exact ⟨k + 1, (micros_eq_some_iff (k + 1) 0 r).mpr
      ⟨k, Nat.zero_le k, by omega, fun j _ hj => hno j hj, hyes, hr⟩⟩

theorem counter_part {v : ℕ} (h : v ≤ 119999) :
    (UInt32.ofNat 120000 - UInt32.ofNat v) / UInt32.ofNat 120 = UInt32.ofNat ((120000 - v) / 120) := by
  have hle : UInt32.ofNat v ≤ UInt32.ofNat 120000 := by
    rw [UInt32.le_iff_toNat_le, UInt32.toNat_ofNat', UInt32.toNat_ofNat']
    omega
  have hv : v % 2 ^ 32 = v := Nat.mod_eq_of_lt (by omega)
  rw [← UInt32.toNat_inj, UInt32.toNat_div, UInt32.toNat_sub_of_le _ _ hle, UInt32.toNat_ofNat', UInt32.toNat_ofNat',
    UInt32.toNat_ofNat', UInt32.toNat_ofNat', hv, Nat.mod_eq_of_lt (show 120000 < 2 ^ 32 by decide),
    Nat.mod_eq_of_lt (show 120 < 2 ^ 32 by decide), Nat.mod_eq_of_lt]
  omega

theorem dvd_thousand_iff (d : ℕ) : 2 ^ 32 ∣ 1000 * d ↔ 2 ^ 29 ∣ d := by
  rw [show 2 ^ 32 = 8 * 2 ^ 29 by rfl, show 1000 * d = 8 * (125 * d) by omega, Nat.mul_dvd_mul_iff_left (by decide)]
  exact Nat.Coprime.dvd_mul_left (by decide)

theorem reading_exact_iff (i : ℕ) :
    (reading turns t i).Exact ↔ 2 ^ 29 ∣ reloadsBetween (firstRead turns t i) (sampleRead turns t i) := by
  have hle : firstRead turns t i ≤ sampleRead turns t i := by
    rw [sampleRead]
    omega
  have hreloads : firstRead turns t i / 120000 ≤ sampleRead turns t i / 120000 := Nat.div_le_div_right hle
  simp only [Reading.Exact, reading, clockAt_eq]
  rw [counter_part (by omega), show (1000 : UInt32) = UInt32.ofNat 1000 from rfl, ← UInt32.ofNat_mul,
    ← UInt32.ofNat_add, ofNat_eq_iff, reloadsBetween]
  change _ ≡ _ [MOD 2 ^ 32] ↔ _
  rw [Nat.mul_comm, Nat.modEq_iff_dvd' (by omega), Nat.add_sub_add_right, ← Nat.mul_sub]
  exact dvd_thousand_iff _

theorem Reading.Exact.value_eq {i : ℕ} (h : (reading turns t i).Exact) :
    (reading turns t i).value = UInt32.ofNat ((sampleRead turns t i + 1) / 120) := by
  rw [h]
  simp only [reading, clockAt_eq]
  congr 1
  omega

theorem le_turnStart (i : ℕ) : t ≤ turnStart turns t i := by
  induction i with
  | zero => exact le_refl t
  | succ i ih =>
    rw [turnStart]
    omega

theorem ofNat_sub_ofNat {a b : ℕ} (h : b ≤ a) : UInt32.ofNat a - UInt32.ofNat b = UInt32.ofNat (a - b) := by
  conv_lhs => rw [← Nat.sub_add_cancel h, UInt32.ofNat_add]
  exact UInt32.add_sub_cancel _ _

/-- The difference of two calls is the time between their samples, in whole microseconds up to rounding. -/
def Elapsed (r r' : Reading) : Prop :=
  ∃ d, r'.value - r.value = UInt32.ofNat d ∧ r.sampled.steps ≤ r'.sampled.steps ∧
    (r'.sampled.steps - r.sampled.steps) / 120 ≤ d ∧ d ≤ (r'.sampled.steps - r.sampled.steps) / 120 + 1

theorem elapsed_of_exact {turns' : ℕ → Turn} {i j : ℕ} (h : (reading turns t i).Exact)
    (h' : (reading turns' (checkRead turns t i) j).Exact) :
    Elapsed (reading turns t i) (reading turns' (checkRead turns t i) j) := by
  have hle : sampleRead turns t i ≤ sampleRead turns' (checkRead turns t i) j := by
    have hstart : checkRead turns t i ≤ turnStart turns' (checkRead turns t i) j := le_turnStart j
    have hcheck : checkRead turns t i = sampleRead turns t i + (turns i).check := rfl
    have hsample : sampleRead turns' (checkRead turns t i) j =
        turnStart turns' (checkRead turns t i) j + (turns' j).first + (turns' j).sample := rfl
    omega
  have hsteps : (reading turns t i).sampled.steps = sampleRead turns t i := steps_clockAt _
  have hsteps' : (reading turns' (checkRead turns t i) j).sampled.steps =
      sampleRead turns' (checkRead turns t i) j := steps_clockAt _
  refine ⟨(sampleRead turns' (checkRead turns t i) j + 1) / 120 - (sampleRead turns t i + 1) / 120, ?_, ?_, ?_, ?_⟩
  · rw [h.value_eq, h'.value_eq, ofNat_sub_ofNat (Nat.div_le_div_right (by omega))]
  all_goals
    rw [hsteps, hsteps']
    omega

/-- A call returns the exact time exactly when its reads are steady, and then so does the next call, with the elapsed
time as the difference of the two. -/
theorem micros_exact_iff (turns : ℕ → Turn) (t : ℕ) :
    (∃ r, Returns turns (clockAt t) r ∧ r.Exact ∧
      ∀ turns', Steady turns' r.ended.steps → ∃ r', Returns turns' r.ended r' ∧ r'.Exact ∧ Elapsed r r') ↔
      Steady turns t := by
  constructor
  · rintro ⟨r, hreturns, hexact, -⟩
    obtain ⟨i, hno, hyes, rfl⟩ := (returns_iff r).mp hreturns
    exact ⟨i, hno, hyes, (reading_exact_iff i).mp hexact⟩
  · rintro ⟨i, hno, hyes, hexact⟩
    refine ⟨reading turns t i, (returns_iff _).mpr ⟨i, hno, hyes, rfl⟩, (reading_exact_iff i).mpr hexact, ?_⟩
    intro turns' hsteady
    have hended : (reading turns t i).ended = clockAt (checkRead turns t i) := rfl
    rw [hended, steps_clockAt] at hsteady
    obtain ⟨j, hno', hyes', hexact'⟩ := hsteady
    rw [hended]
    exact ⟨reading turns' (checkRead turns t i) j, (returns_iff _).mpr ⟨j, hno', hyes', rfl⟩,
      (reading_exact_iff j).mpr hexact', elapsed_of_exact ((reading_exact_iff i).mpr hexact)
        ((reading_exact_iff j).mpr hexact')⟩

theorem micros_starves (r : Reading) : ¬ Returns (fun _ => ⟨0, 120000, 0⟩) (clockAt 0) r := by
  rw [returns_iff]
  rintro ⟨i, -, hagrees, -⟩
  have hone : reloadsBetween (firstRead (fun _ => ⟨0, 120000, 0⟩) 0 i)
      (checkRead (fun _ => ⟨0, 120000, 0⟩) 0 i) = 1 := by
    simp only [reloadsBetween, checkRead, sampleRead, firstRead]
    omega
  rw [Agrees, hone] at hagrees
  exact absurd hagrees (by decide)

/-- 2^32 reloads between the two reads of milliseconds pass unnoticed, with the counter sampled after the first of
them; and a call whose turns all meet a reload returns nothing. -/
theorem micros_unsteady_schedules :
    (∃ r, Returns (fun _ => ⟨0, 120000, (2 ^ 32 - 1) * 120000⟩) (clockAt 0) r ∧ ¬ r.Exact) ∧
      ¬ ∃ r, Returns (fun _ => ⟨0, 120000, 0⟩) (clockAt 0) r := by
  refine ⟨⟨_, (returns_iff _).mpr ⟨0, fun j hj => absurd hj (Nat.not_lt_zero j), ?_, rfl⟩, ?_⟩, ?_⟩
  · simp only [Agrees, reloadsBetween, checkRead, sampleRead, firstRead, turnStart]
    decide
  · rw [reading_exact_iff]
    simp only [reloadsBetween, sampleRead, firstRead, turnStart]
    decide
  · rintro ⟨r, hreturns⟩
    exact micros_starves r hreturns

end LogoCore.Wiring
