import LogoCore.EventMachine
import LogoCore.Servo
import Mathlib.Algebra.BigOperators.Fin

namespace LogoCore.Servo

namespace Servos

variable (s : Servos) {k : Fin 8}

def pulseSum : ℕ := ∑ k, (s.servos k).pulseWidth.toNat

def otherPulses (k : Fin 8) : ℕ := ∑ j ∈ Finset.univ.erase k, (s.servos j).pulseWidth.toNat

def Frame : Prop := s.pulseSum + s.remainderPulseWidth.toNat = 20000

theorem foldl_pulseWidth (ks : List (Fin 8)) (w : UInt32) :
    (ks.foldl (fun sum i => sum + (s.servos i).pulseWidth) w).toNat =
      (w.toNat + (ks.map fun i => (s.servos i).pulseWidth.toNat).sum) % 2 ^ 32 := by
  induction ks generalizing w with
  | nil => exact (Nat.mod_eq_of_lt w.toNat_lt).symm
  | cons k ks ih =>
    rw [List.foldl_cons, ih, UInt32.toNat_add, List.map_cons, List.sum_cons, Nat.mod_add_mod, add_assoc]

theorem remainder_toNat :
    s.calculatePeriodRemainder.remainderPulseWidth.toNat = (2 ^ 32 - s.pulseSum % 2 ^ 32 + 20000) % 2 ^ 32 := by
  have hsum := s.foldl_pulseWidth (List.finRange 8) 0
  rw [← Fin.sum_univ_def] at hsum
  simp only [calculatePeriodRemainder, UInt32.toNat_sub, hsum, UInt32.toNat_zero, zero_add]
  rfl

theorem calculatePeriodRemainder_servos : s.calculatePeriodRemainder.servos = s.servos := by
  unfold calculatePeriodRemainder
  rfl

theorem calculatePeriodRemainder_frame : s.calculatePeriodRemainder.Frame ↔ s.pulseSum ≤ 20000 := by
  have hremainder := s.remainder_toNat
  have hpulses : s.calculatePeriodRemainder.pulseSum = s.pulseSum := by
    unfold pulseSum
    rw [calculatePeriodRemainder_servos]
  unfold Frame
  rw [hpulses, hremainder]
  omega

theorem setEntry_pulseSum (e : ServoEntry) : (s.setEntry k e).pulseSum = e.pulseWidth.toNat + s.otherPulses k := by
  unfold pulseSum otherPulses
  rw [← Finset.add_sum_erase _ _ (Finset.mem_univ k)]
  congr 1
  · simp only [setEntry, Function.update_self]
  · apply Finset.sum_congr rfl
    intro j hj
    simp only [setEntry, Function.update_of_ne (Finset.ne_of_mem_erase hj)]

theorem pulseSum_eq (k : Fin 8) : s.pulseSum = (s.servos k).pulseWidth.toNat + s.otherPulses k :=
  (Finset.add_sum_erase _ _ (Finset.mem_univ k)).symm

theorem setEntry_frame (e : ServoEntry) :
    (s.setEntry k e).calculatePeriodRemainder.Frame ↔ e.pulseWidth.toNat + s.otherPulses k ≤ 20000 := by
  rw [calculatePeriodRemainder_frame, setEntry_pulseSum]

def limited (min max value : Int32) : Int32 :=
  let value := if value < min then min else value
  if value > max then max else value

theorem toUInt32_le_iff (v : Int32) {n : ℕ} (hn : n ≤ 20000) :
    v.toUInt32.toNat ≤ n ↔ 0 ≤ v.toInt ∧ v.toInt ≤ n := by
  have hlt := v.toBitVec.isLt
  have hint : v.toInt = if 2 * v.toUInt32.toNat < 2 ^ 32 then (v.toUInt32.toNat : ℤ) else v.toUInt32.toNat - 2 ^ 32 :=
    BitVec.toInt_eq_toNat_cond v.toBitVec
  have := v.toUInt32.toNat_lt
  rw [hint]
  split <;> omega

theorem limited_le_iff (min max value : Int32) {n : ℕ} (hn : n ≤ 20000) :
    (limited min max value).toUInt32.toNat ≤ n ↔
      (0 ≤ max.toInt ∧ (0 ≤ value.toInt ∨ 0 ≤ min.toInt)) ∧
        (max.toInt ≤ n ∨ value.toInt ≤ n ∧ min.toInt ≤ n) := by
  rw [toUInt32_le_iff _ hn]
  unfold limited
  simp only [gt_iff_lt, Int32.lt_iff_toInt_lt]
  split <;> split <;> omega

/-- With `value` limited to its range, the pulses of the eight servos fit in the interval. -/
def Fits (s : Servos) (k : Fin 8) (value : Int32) : Prop :=
  let room : ℤ := 20000 - s.otherPulses k
  (0 ≤ (s.max k).toInt ∧ (0 ≤ value.toInt ∨ 0 ≤ (s.min k).toInt)) ∧
    ((s.max k).toInt ≤ room ∨ value.toInt ≤ room ∧ (s.min k).toInt ≤ room)

variable {s}

theorem Frame.pulseSum_le (h : s.Frame) : s.pulseSum ≤ 20000 := by
  unfold Frame at h
  omega

theorem Frame.writeMicroseconds_iff (h : s.Frame) (k : Fin 8) (value : Int32) :
    (s.writeMicroseconds k value).Frame ↔ s.Fits k value := by
  have hothers : s.otherPulses k ≤ 20000 := by
    have := s.pulseSum_eq k
    have := h.pulseSum_le
    omega
  have hstored := limited_le_iff (s.min k) (s.max k) value (n := 20000 - s.otherPulses k) (Nat.sub_le _ _)
  rw [Nat.le_sub_iff_add_le hothers, Nat.cast_sub hothers] at hstored
  exact (s.setEntry_frame _).trans hstored

theorem Frame.detach_iff (k : Fin 8) : (s.detach k).2.Frame ↔ 1500 + s.otherPulses k ≤ 20000 :=
  s.setEntry_frame _

theorem Frame.setEntry (h : s.Frame) {e : ServoEntry} (he : e.pulseWidth = (s.servos k).pulseWidth) :
    (s.setEntry k e).Frame := by
  unfold Frame at h ⊢
  rw [setEntry_pulseSum, he, ← pulseSum_eq]
  exact h

theorem Frame.attach (h : s.Frame) (k : Fin 8) (pin : UInt32) (min max : Int32) :
    (s.attach k pin min max).2.Frame := by
  simp only [Servos.attach]
  apply Frame.setEntry
  · rw [setEntry_frame]
    apply h.pulseSum_le.trans'
    rw [s.pulseSum_eq k]
    exact le_rfl
  · rfl

theorem Frame.interrupt (h : s.Frame) (stray : ServoEntry) : (s.servoIntHandler stray).after.Frame := h

theorem initServo_frame (min max : Fin 8 → Int32) : (initServo min max).Frame := by
  apply (calculatePeriodRemainder_frame _).mpr
  simp [pulseSum]

def turn (s : Servos) (c : ℕ) : UInt32 := if h : c < 8 then (s.servos ⟨c, h⟩).pulseWidth else s.remainderPulseWidth

def loads (s : Servos) : List ServoEntry → List UInt32
  | [] => []
  | stray :: strays => (s.servoIntHandler stray).load :: (s.servoIntHandler stray).after.loads strays

theorem load_eq (s : Servos) (stray : ServoEntry) :
    (s.servoIntHandler stray).load = ticksPerMicrosecond * s.turn s.currentServo.val := by
  unfold servoIntHandler turn
  by_cases h : s.currentServo.val < 8
  · have hcurrent := s.entry_fin stray ⟨s.currentServo.val, h⟩
    have hcast : (s.currentServo.val : ℤ) < 8 := by omega
    simp only at hcurrent
    simp only [hcurrent, dif_pos h, if_pos hcast]
  · have hcast : ¬ (s.currentServo.val : ℤ) < 8 := by omega
    rw [dif_neg h]
    simp only [if_neg hcast]

theorem loads_eq (s : Servos) (strays : List ServoEntry) :
    s.loads strays = (List.range strays.length).map fun i =>
      ticksPerMicrosecond * s.turn ((s.currentServo.val + i) % 9) := by
  induction strays generalizing s with
  | nil => rfl
  | cons stray strays ih =>
    have hnext : (s.servoIntHandler stray).after.currentServo.val = (s.currentServo.val + 1) % 9 := advance_val _
    rw [loads, ih, load_eq, hnext, List.length_cons, List.range_succ_eq_map, List.map_cons, List.map_map]
    congr 1
    · rw [add_zero, Nat.mod_eq_of_lt s.currentServo.isLt]
    · apply List.map_congr_left
      intro i _
      simp only [Function.comp_apply, Nat.mod_add_mod, Nat.succ_eq_add_one]
      rw [add_assoc, add_comm 1 i]
      rfl

theorem Frame.turn_le (h : s.Frame) (c : ℕ) : (s.turn c).toNat ≤ 20000 := by
  unfold turn
  split
  · rename_i hc
    have := s.pulseSum_eq ⟨c, hc⟩
    have := h.pulseSum_le
    omega
  · unfold Frame at h
    omega

theorem Frame.ticks (h : s.Frame) (c : ℕ) :
    (ticksPerMicrosecond * s.turn c).toNat = 120 * (s.turn c).toNat := by
  rw [UInt32.toNat_mul]
  apply Nat.mod_eq_of_lt
  have := h.turn_le c
  change 120 * _ < _
  omega

theorem sum_turn (s : Servos) : ∑ i : Fin 9, (s.turn i.val).toNat = s.pulseSum + s.remainderPulseWidth.toNat := by
  rw [Fin.sum_univ_castSucc]
  rfl

theorem Frame.cycle (h : s.Frame) {strays : List ServoEntry} (hlen : strays.length = 9) :
    ((s.loads strays).map UInt32.toNat).sum = 120 * 20000 := by
  let f (i : ℕ) : ℕ := 120 * (s.turn ((s.currentServo.val + i) % 9)).toNat
  have hloads : (s.loads strays).map UInt32.toNat = (List.range 9).map f := by
    rw [loads_eq, hlen, List.map_map]
    apply List.map_congr_left
    intro i _
    exact h.ticks _
  calc ((s.loads strays).map UInt32.toNat).sum
      = ∑ i ∈ Finset.range 9, f i := by rw [hloads]; rfl
    _ = ∑ i : Fin 9, 120 * (s.turn (s.currentServo + i).val).toNat := Finset.sum_range f
    _ = ∑ i : Fin 9, 120 * (s.turn i.val).toNat :=
        Equiv.sum_comp (Equiv.addLeft s.currentServo) fun i : Fin 9 => 120 * (s.turn i.val).toNat
    _ = 120 * 20000 := by rw [← Finset.mul_sum, sum_turn, h]

end Servos

/-- The pulses and the remainder make up the interval, and so do the timer loads of nine interrupts. -/
structure WholeFrame (s : Servos) : Prop where
  frame : s.Frame
  cycle : ∀ strays : List ServoEntry, strays.length = 9 → ((s.loads strays).map UInt32.toNat).sum = 120 * 20000

def tableMachine : Machine Servos ServoEvent := ⟨fun _ _ => True, Servos.step⟩

def KeepsFrame (s : Servos) : ServoEvent → Prop
  | .writeMicroseconds k value => s.Fits k value
  | .write k value => s.Fits k (Servos.microseconds (s.min k) (s.max k) value)
  | .detach k => 1500 + s.otherPulses k ≤ 20000
  | .attach _ _ _ _ => True
  | .interrupt _ => True

theorem Servos.Frame.step_iff {s : Servos} (h : s.Frame) (e : ServoEvent) : (s.step e).Frame ↔ KeepsFrame s e := by
  cases e with
  | attach k pin min max => exact iff_of_true (h.attach k pin min max) trivial
  | write k value => exact h.writeMicroseconds_iff k _
  | writeMicroseconds k value => exact h.writeMicroseconds_iff k value
  | detach k => exact Servos.Frame.detach_iff k
  | interrupt stray => exact iff_of_true (h.interrupt stray) trivial

theorem servo_frame_iff (min max : Fin 8 → Int32) (es : List ServoEvent) :
    (∀ fs gs, es = fs ++ gs → WholeFrame (tableMachine.run (Servos.initServo min max) fs)) ↔
      (Machine.mk KeepsFrame Servos.step).Legal (Servos.initServo min max) es := by
  apply Machine.always_iff (I := Servos.Frame) ?_ ?_ ?_ (Servos.initServo_frame min max)
  · exact Machine.legal_iff_splits.mpr fun _ _ _ _ => trivial
  · intro s h
    exact ⟨h, fun _ => h.cycle⟩
  · intro s e h _ hwhole
    exact (h.step_iff e).mp hwhole.frame
  · intro s e h _ hkeeps
    exact (h.step_iff e).mpr hkeeps

/-- A servo attached with a range up to 20000 is written that long a pulse: the remainder wraps. -/
theorem servo_frame_overrun :
    let s := tableMachine.run (Servos.initServo (fun _ => 0) fun _ => 0)
      [.attach 0 5 544 20000, .writeMicroseconds 0 20000]
    s.pulseSum = 30500 ∧ s.remainderPulseWidth = 4294956796 ∧ ¬ WholeFrame s := by
  intro s
  have hsum : s.pulseSum = 30500 := by decide +kernel
  refine ⟨hsum, by decide +kernel, ?_⟩
  intro h
  have := h.frame.pulseSum_le
  omega

end LogoCore.Servo
