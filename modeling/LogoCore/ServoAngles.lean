import LogoCore.ServoFrame
import LogoCore.SignedWords

namespace LogoCore.Servo

open SignedWords

def ServoEvent.object : ServoEvent → Option (Fin 8)
  | .attach k _ _ _ => some k
  | .write k _ => some k
  | .writeMicroseconds k _ => some k
  | .detach k => some k
  | .interrupt _ => none

def ServoEvent.ranged : ServoEvent → Option (Fin 8)
  | .attach k _ _ _ => some k
  | _ => none

theorem ServoEvent.ranged_ne {e : ServoEvent} {k : Fin 8} (h : e.object ≠ some k) : e.ranged ≠ some k := by
  cases e with
  | attach j pin min max => exact h
  | _ => simp [ranged]

theorem scale_back {a n r : ℤ} (hn : 0 < n) (hr : n < r) : (a * r / n + 1) * n / r = a := by
  rw [Int.ediv_eq_iff_of_pos (by omega)]
  have hle := Int.ediv_mul_le (a * r) hn.ne'
  have hlt := Int.lt_ediv_add_one_mul_self (a * r) hn
  refine ⟨hlt.le, ?_⟩
  rw [add_mul, one_mul]
  omega

section Maps

variable {min max : Int32}

theorem toInt_map {x inMin inMax outMin outMax : Int32} {u r n : ℤ} (hx : (x - inMin).toInt = u)
    (hout : (outMax - outMin).toInt = r) (hin : (inMax - inMin).toInt = n) (hproduct : 0 ≤ u * r ∧ u * r < 2 ^ 31)
    (hsum : Fits (u * r / n + outMin.toInt)) :
    (Servos.map x inMin inMax outMin outMax).toInt = u * r / n + outMin.toInt := by
  have hfits : Fits (u * r) := ⟨by omega, hproduct.2⟩
  rw [Servos.map, Int32.toInt_add, Int32.toInt_div, Int32.toInt_mul, hx, hout, hin, bmod_eq_of_fits hfits,
    bmod_eq_of_fits (fits_tdiv hfits (.inl hproduct.1)), Int.tdiv_eq_ediv_of_nonneg hproduct.1, bmod_eq_of_fits hsum]

theorem toInt_width (hlow : 0 ≤ max.toInt - min.toInt) (hhigh : max.toInt - min.toInt < 2 ^ 31) :
    (max - min).toInt = max.toInt - min.toInt := by
  rw [Int32.toInt_sub]
  exact bmod_eq_of_fits ⟨by omega, hhigh⟩

theorem toInt_map_angle (hwide : 0 ≤ max.toInt - min.toInt) (hfits : 180 * (max.toInt - min.toInt + 1) < 2 ^ 31)
    {a : Int32} (ha : 0 ≤ a.toInt ∧ a.toInt ≤ 180) :
    ∃ t, t = a.toInt * (max.toInt - min.toInt) / 180 ∧ 0 ≤ t ∧ t ≤ max.toInt - min.toInt ∧
      (Servos.map a 0 180 min max).toInt = t + min.toInt := by
  have hproduct : 0 ≤ a.toInt * (max.toInt - min.toInt) := Int.mul_nonneg ha.1 hwide
  have hle : a.toInt * (max.toInt - min.toInt) ≤ 180 * (max.toInt - min.toInt) :=
    Int.mul_le_mul_of_nonneg_right ha.2 hwide
  obtain ⟨hmin, -⟩ := fits_toInt min
  obtain ⟨-, hmax⟩ := fits_toInt max
  refine ⟨_, rfl, by omega, by omega, toInt_map ?_ (toInt_width hwide (by omega)) rfl ⟨hproduct, by omega⟩
    ⟨by omega, by omega⟩⟩
  rw [Int32.sub_zero]

theorem toInt_map_pulse (hwide : 180 < max.toInt - min.toInt) (hfits : 180 * (max.toInt - min.toInt + 1) < 2 ^ 31)
    {v : Int32} {t : ℤ} (hv : v.toInt = t + min.toInt) (ht : 0 ≤ t ∧ t ≤ max.toInt - min.toInt) :
    (Servos.map (v + 1) min max 0 180).toInt = (t + 1) * 180 / (max.toInt - min.toInt) := by
  have hone : (1 : Int32).toInt = 1 := rfl
  have hzero : (0 : Int32).toInt = 0 := rfl
  have hturn : ((180 : Int32) - 0).toInt = 180 := rfl
  have hoffset : (v + 1 - min).toInt = t + 1 := by
    -- v + 1 may wrap round, its distance from min does not
    rw [Int32.toInt_sub, Int32.toInt_add, Int.bmod_sub_bmod, hv, hone]
    have hdistance : t + min.toInt + 1 - min.toInt = t + 1 := by omega
    rw [hdistance]
    exact bmod_eq_of_fits ⟨by omega, by omega⟩
  have hnonneg : 0 ≤ (t + 1) * 180 / (max.toInt - min.toInt) := Int.ediv_nonneg (by omega) (by omega)
  have hle : (t + 1) * 180 / (max.toInt - min.toInt) ≤ (t + 1) * 180 := Int.ediv_le_self _ (by omega)
  have hwidth : (max - min).toInt = max.toInt - min.toInt := toInt_width (by omega) (by omega)
  rw [toInt_map hoffset hturn hwidth ⟨by omega, by omega⟩ ?_, hzero, Int.add_zero]
  rw [hzero]
  exact ⟨by omega, by omega⟩

end Maps

namespace Servos

variable {s : Servos} {k : Fin 8} {lowest highest a : Int32}

structure HasRange (s : Servos) (k : Fin 8) (lowest highest : Int32) : Prop where
  min_eq : s.min k = lowest
  max_eq : s.max k = highest

theorem step_range {e : ServoEvent} (he : e.ranged ≠ some k) (h : s.HasRange k lowest highest) :
    (s.step e).HasRange k lowest highest := by
  cases e with
  | attach j pin min max =>
    have hne : k ≠ j := fun heq => he (congrArg some heq.symm)
    exact ⟨(Function.update_of_ne hne _ _).trans h.min_eq, (Function.update_of_ne hne _ _).trans h.max_eq⟩
  | write j value => exact ⟨h.min_eq, h.max_eq⟩
  | writeMicroseconds j value => exact ⟨h.min_eq, h.max_eq⟩
  | detach j => exact ⟨h.min_eq, h.max_eq⟩
  | interrupt stray => exact ⟨h.min_eq, h.max_eq⟩

theorem run_range (h : s.HasRange k lowest highest) {es : List ServoEvent} (hes : ∀ e ∈ es, e.ranged ≠ some k) :
    (tableMachine.run s es).HasRange k lowest highest :=
  Machine.invariant_on (I := fun s : Servos => s.HasRange k lowest highest) (fun _ _ he h => step_range he h) h hes

theorem attach_range (s : Servos) (k : Fin 8) (pin : UInt32) (min max : Int32) :
    (s.attach k pin min max).2.HasRange k min max :=
  ⟨Function.update_self _ _ _, Function.update_self _ _ _⟩

theorem setEntry_of_ne {j : Fin 8} (hne : k ≠ j) (s : Servos) (e : ServoEntry) :
    (s.setEntry j e).servos k = s.servos k :=
  Function.update_of_ne hne _ _

theorem step_readMicroseconds {e : ServoEvent} (he : e.object ≠ some k) :
    (s.step e).readMicroseconds k = s.readMicroseconds k := by
  have hne (j : Fin 8) (hj : e.object = some j) : k ≠ j := fun heq => he (heq ▸ hj)
  cases e with
  | attach j pin min max =>
    simp only [step, attach, readMicroseconds, setEntry_of_ne (hne j rfl), calculatePeriodRemainder_servos]
  | write j value =>
    simp only [step, write, writeMicroseconds, readMicroseconds, calculatePeriodRemainder_servos,
      setEntry_of_ne (hne j rfl)]
  | writeMicroseconds j value =>
    simp only [step, writeMicroseconds, readMicroseconds, calculatePeriodRemainder_servos, setEntry_of_ne (hne j rfl)]
  | detach j =>
    simp only [step, detach, readMicroseconds, calculatePeriodRemainder_servos, setEntry_of_ne (hne j rfl)]
  | interrupt stray => rfl

theorem run_readMicroseconds {es : List ServoEvent} (hes : ∀ e ∈ es, e.object ≠ some k) :
    (tableMachine.run s es).readMicroseconds k = s.readMicroseconds k :=
  Machine.invariant_on (I := fun s' : Servos => s'.readMicroseconds k = s.readMicroseconds k)
    (fun _ _ he h => (step_readMicroseconds he).trans h) rfl hes

theorem microseconds_of_angle (min max : Int32) (ha : 0 ≤ a.toInt ∧ a.toInt ≤ 180) :
    microseconds min max a = map a 0 180 min max := by
  have hdegrees : a < 544 := by
    rw [Int32.lt_iff_toInt_lt]
    exact ha.2.trans_lt (by decide)
  have hlow : ¬ a < 0 := by
    rw [Int32.lt_iff_toInt_lt]
    exact not_lt.mpr ha.1
  have hhigh : ¬ a > 180 := by
    rw [gt_iff_lt, Int32.lt_iff_toInt_lt]
    exact not_lt.mpr ha.2
  simp only [microseconds, if_pos hdegrees, if_neg hlow, if_neg hhigh]

theorem readMicroseconds_writeMicroseconds (h : s.HasRange k lowest highest) {v : Int32}
    (hv : lowest.toInt ≤ v.toInt ∧ v.toInt ≤ highest.toInt) :
    (s.writeMicroseconds k v).readMicroseconds k = v := by
  have hlow : ¬ v < s.min k := by
    rw [h.min_eq, Int32.lt_iff_toInt_lt]
    exact not_lt.mpr hv.1
  have hhigh : ¬ v > s.max k := by
    rw [h.max_eq, gt_iff_lt, Int32.lt_iff_toInt_lt]
    exact not_lt.mpr hv.2
  simp only [writeMicroseconds, if_neg hlow, if_neg hhigh, readMicroseconds, calculatePeriodRemainder_servos,
    setEntry, Function.update_self]
  rfl

theorem read_of_range (h : s.HasRange k lowest highest) :
    s.read k = map (s.readMicroseconds k + 1) lowest highest 0 180 := by
  rw [read, h.min_eq, h.max_eq]

end Servos

theorem servo_angle_reads_back (s : Servos) (k : Fin 8) (pin : UInt32) {min max a : Int32}
    (hwide : 180 < max.toInt - min.toInt) (hfits : 180 * (max.toInt - min.toInt + 1) < 2 ^ 31)
    (ha : 0 ≤ a.toInt ∧ a.toInt ≤ 180) (es es' : List ServoEvent) (hes : ∀ e ∈ es, e.ranged ≠ some k)
    (hes' : ∀ e ∈ es', e.object ≠ some k) :
    (tableMachine.run s (.attach k pin min max :: es ++ .write k a :: es')).read k = a := by
  obtain ⟨t, ht, hnonneg, hle, hangle⟩ := toInt_map_angle (by omega) hfits ha
  rw [List.cons_append, Machine.run_cons, Machine.run_append, Machine.run_cons]
  set attached := tableMachine.run (tableMachine.step s (.attach k pin min max)) es
  set after := tableMachine.run (tableMachine.step attached (.write k a)) es'
  have hrange : attached.HasRange k min max := Servos.run_range (s.attach_range k pin min max) hes
  have hwrite : (attached.step (.write k a)).HasRange k min max :=
    Servos.step_range (by simp [ServoEvent.ranged]) hrange
  have hafter : after.HasRange k min max := Servos.run_range hwrite fun e he => ServoEvent.ranged_ne (hes' e he)
  have hwritten : (attached.write k a).readMicroseconds k = Servos.map a 0 180 min max := by
    rw [Servos.write, hrange.min_eq, hrange.max_eq, Servos.microseconds_of_angle min max ha]
    exact Servos.readMicroseconds_writeMicroseconds hrange ⟨by omega, by omega⟩
  have hread : after.readMicroseconds k = Servos.map a 0 180 min max :=
    (Servos.run_readMicroseconds hes').trans hwritten
  apply Int32.toInt_inj.mp
  rw [Servos.read_of_range hafter, hread, toInt_map_pulse hwide hfits hangle ⟨hnonneg, hle⟩, ht]
  exact scale_back (by decide) hwide

/-- The default range, with another servo attached and moved meanwhile. -/
theorem servo_reads_back_over_default_range :
    (tableMachine.run (Servos.initServo (fun _ => 0) fun _ => 0)
      [.attach 3 9 544 2400, .write 3 20, .attach 4 10 0 20000, .write 3 137, .interrupt ⟨0, 0, false⟩,
        .write 4 90]).read 3 = 137 :=
  servo_angle_reads_back _ 3 9 (by decide) (by decide) (by decide) [.write 3 20, .attach 4 10 0 20000]
    [.interrupt ⟨0, 0, false⟩, .write 4 90] (by simp [ServoEvent.ranged]) (by simp [ServoEvent.object])

end LogoCore.Servo
