import LogoCore.PinTables
import Mathlib.Tactic.Ring

namespace LogoCore.Pwm

open Pins

structure HalfTimer where
  mode : UInt32
  enabled : Bool
  load : UInt32
  matchValue : UInt32
  prescale : UInt8
  prescaleMatch : UInt8

structure Timers where
  cfg : ℕ → UInt32
  half : ℕ × TimerHalf → HalfTimer

inductive PinDrive
  | output (high : Bool)
  | timer (timer : ℕ)

structure PwmCall where
  pin : Fin 96
  analogRes : UInt32
  duty : UInt32
  freq : UInt32

def fCpu : UInt32 := 120000000

def pwmMode : UInt32 := 0x20A

def wtimer0 : ℕ := 6

def halfOf (pin : Fin 96) : ℕ × TimerHalf :=
  (timerToOffset (digitalPinToTimer pin), timerToAb (digitalPinToTimer pin))

def highHalf (value : UInt32) : UInt8 := ((value &&& 0xFFFF0000) >>> 16).toUInt8

def HalfTimer.program (h : HalfTimer) (offset : ℕ) (periodPwm matchPwm : UInt32) : HalfTimer :=
  let h := { h with mode := pwmMode, load := periodPwm, matchValue := matchPwm }
  let h := if offset < wtimer0 ∧ periodPwm > 0xFFFF then
      { h with prescale := highHalf periodPwm, prescaleMatch := highHalf matchPwm }
    else h
  { h with enabled := true }

def pwmWrite (t : Timers) (c : PwmCall) : Option PinDrive × Timers :=
  if c.duty = 0 then ((digitalPinToPort c.pin).map fun _ => .output false, t)
  else if c.duty ≥ c.analogRes then ((digitalPinToPort c.pin).map fun _ => .output true, t)
  else match digitalPinToPort c.pin with
    | none => (none, t)
    | some _ =>
      let i := halfOf c.pin
      let periodPwm := fCpu / c.freq
      let h := (t.half i).program i.1 periodPwm ((c.analogRes - c.duty) * periodPwm / c.analogRes)
      (some (.timer (digitalPinToTimer c.pin)),
        { cfg := Function.update t.cfg i.1 0x04, half := Function.update t.half i h })

def analogWrite (t : Timers) (pin : Fin 96) (val : Int32) : Option PinDrive × Timers :=
  pwmWrite t ⟨pin, 255, val.toUInt32, 490⟩

structure Tone where
  toneState : Bool
  currentPin : Fin 96
  toneTimer : ℕ

/-- The tone() without a duration. -/
def tone (s : Tone) (t : Timers) (pin : Fin 96) (frequency : UInt32) : Tone × Timers :=
  match digitalPinToPort pin with
  | none => (s, t)
  | some _ =>
    if s.toneState = false ∨ pin = s.currentPin then
      ({ s with toneTimer := digitalPinToTimer pin, toneState := true }, (pwmWrite t ⟨pin, 256, 128, frequency⟩).2)
    else (s, t)

def run (t : Timers) (cs : List PwmCall) : Timers := cs.foldl (fun t c => (pwmWrite t c).2) t

/-- The 24 bits the half counts from: the prescaler extends the load value. -/
def HalfTimer.period (h : HalfTimer) : ℕ := h.prescale.toNat * 2 ^ 16 + h.load.toNat % 2 ^ 16

def HalfTimer.matchPoint (h : HalfTimer) : ℕ := h.prescaleMatch.toNat * 2 ^ 16 + h.matchValue.toNat % 2 ^ 16

def HalfTimer.Unscaled (h : HalfTimer) : Prop := h.prescale = 0 ∧ h.prescaleMatch = 0

namespace PwmCall

variable (c : PwmCall)

def period : ℕ := 120000000 / c.freq.toNat

def matchPoint : ℕ := (c.analogRes.toNat - c.duty.toNat) * c.period / c.analogRes.toNat

structure InRange : Prop where
  duty_pos : 0 < c.duty
  duty_lt : c.duty < c.analogRes
  period_lt : c.period < 2 ^ 24
  product_lt : (c.analogRes.toNat - c.duty.toNat) * c.period < 2 ^ 32

end PwmCall

structure Programmed (h : HalfTimer) (c : PwmCall) : Prop where
  period : h.period = c.period
  matchPoint : h.matchPoint = c.matchPoint

theorem HalfTimer.period_lt (h : HalfTimer) : h.period < 2 ^ 24 := by
  have hprescale := h.prescale.toNat_lt
  unfold period
  omega

theorem timerToOffset_lt (timer : ℕ) : timerToOffset timer < wtimer0 := by
  unfold timerToOffset
  rw [List.getD_eq_getElem?_getD]
  by_cases h : timer < timerToOffsetTable.length
  · have hall : ∀ n ∈ timerToOffsetTable, n < 6 := by decide
    rw [List.getElem?_eq_getElem h]
    exact hall _ (List.getElem_mem h)
  · rw [List.getElem?_eq_none (by omega)]
    decide

theorem highHalf_toNat {value : UInt32} (h : value.toNat < 2 ^ 24) :
    (highHalf value).toNat = value.toNat / 2 ^ 16 := by
  have hmask : (0xFFFF0000 : ℕ) >>> 16 = 2 ^ 16 - 1 := by decide
  have hdiv : value.toNat / 2 ^ 16 < 2 ^ 8 := by omega
  unfold highHalf
  rw [UInt32.toNat_toUInt8, UInt32.toNat_shiftRight, UInt32.toNat_and]
  change ((value.toNat &&& 0xFFFF0000) >>> 16) % 2 ^ 8 = _
  rw [Nat.shiftRight_and_distrib, hmask, Nat.and_two_pow_sub_one_eq_mod, Nat.shiftRight_eq_div_pow]
  omega

section Program

variable (h : HalfTimer) {offset : ℕ} {periodPwm matchPwm : UInt32}

theorem program_long (ho : offset < wtimer0) (hlong : 0xFFFF < periodPwm.toNat) :
    h.program offset periodPwm matchPwm =
      ⟨pwmMode, true, periodPwm, matchPwm, highHalf periodPwm, highHalf matchPwm⟩ := by
  have hgt : periodPwm > 0xFFFF := UInt32.lt_iff_toNat_lt.mpr hlong
  simp only [HalfTimer.program, if_pos (And.intro ho hgt)]

theorem program_short (hshort : periodPwm.toNat ≤ 0xFFFF) :
    h.program offset periodPwm matchPwm =
      ⟨pwmMode, true, periodPwm, matchPwm, h.prescale, h.prescaleMatch⟩ := by
  have hle : ¬ periodPwm > 0xFFFF := fun hgt => absurd (UInt32.lt_iff_toNat_lt.mp hgt) (by exact not_lt.mpr hshort)
  simp only [HalfTimer.program, hle, and_false, if_false]

theorem program_iff (ho : offset < wtimer0) (hperiod : periodPwm.toNat < 2 ^ 24)
    (hmatch : matchPwm.toNat ≤ periodPwm.toNat) :
    ((h.program offset periodPwm matchPwm).period = periodPwm.toNat ∧
      (h.program offset periodPwm matchPwm).matchPoint = matchPwm.toNat) ↔
      0xFFFF < periodPwm.toNat ∨ h.Unscaled := by
  by_cases hlong : 0xFFFF < periodPwm.toNat
  · refine iff_of_true ?_ (Or.inl hlong)
    rw [program_long h ho hlong]
    simp only [HalfTimer.period, HalfTimer.matchPoint]
    rw [highHalf_toNat hperiod, highHalf_toNat (by omega)]
    omega
  · rw [program_short h (by omega)]
    simp only [HalfTimer.period, HalfTimer.matchPoint, HalfTimer.Unscaled, ← UInt8.toNat_inj, UInt8.toNat_zero]
    omega

end Program

namespace PwmCall

variable {c : PwmCall}

theorem period_toNat (c : PwmCall) : (fCpu / c.freq).toNat = c.period := UInt32.toNat_div _ _

theorem InRange.matchPoint_toNat (h : c.InRange) :
    ((c.analogRes - c.duty) * (fCpu / c.freq) / c.analogRes).toNat = c.matchPoint := by
  have hle : c.duty ≤ c.analogRes := UInt32.le_of_lt h.duty_lt
  rw [UInt32.toNat_div, UInt32.toNat_mul, UInt32.toNat_sub_of_le _ _ hle, period_toNat,
    Nat.mod_eq_of_lt h.product_lt]
  rfl

theorem matchPoint_le (c : PwmCall) : c.matchPoint ≤ c.period := by
  apply Nat.div_le_of_le_mul
  exact Nat.mul_le_mul_right _ (Nat.sub_le _ _)

theorem InRange.program_iff (h : c.InRange) (half : HalfTimer) {offset : ℕ} (ho : offset < wtimer0) :
    Programmed (half.program offset (fCpu / c.freq) ((c.analogRes - c.duty) * (fCpu / c.freq) / c.analogRes)) c ↔
      0xFFFF < c.period ∨ half.Unscaled := by
  have hperiod := c.period_toNat
  have hmatch := h.matchPoint_toNat
  have hle := c.matchPoint_le
  have hlt := h.period_lt
  rw [← hperiod] at hle hlt ⊢
  rw [← hmatch] at hle
  rw [← Pwm.program_iff half ho hlt hle, hperiod, hmatch]
  constructor
  · rintro ⟨hp, hm⟩
    exact ⟨hp, hm⟩
  · rintro ⟨hp, hm⟩
    exact ⟨hp, hm⟩

end PwmCall

theorem pwmWrite_no_port {t : Timers} {c : PwmCall} (hp : digitalPinToPort c.pin = none) :
    (pwmWrite t c).2 = t := by
  unfold pwmWrite
  split
  · rfl
  · split
    · rfl
    · rw [hp]

theorem pwmWrite_programs {t : Timers} {c : PwmCall} (h : c.InRange) {p : Port}
    (hp : digitalPinToPort c.pin = some p) :
    (pwmWrite t c).2.half (halfOf c.pin) = (t.half (halfOf c.pin)).program (halfOf c.pin).1 (fCpu / c.freq)
      ((c.analogRes - c.duty) * (fCpu / c.freq) / c.analogRes) := by
  have hzero : c.duty ≠ 0 := (UInt32.ne_of_lt h.duty_pos).symm
  have hlt : ¬ c.duty ≥ c.analogRes := UInt32.not_le.mpr h.duty_lt
  simp only [pwmWrite, if_neg hzero, if_neg hlt, hp, Function.update_self]

theorem run_append (t : Timers) (cs : List PwmCall) (c : PwmCall) :
    run t (cs ++ [c]) = (pwmWrite (run t cs) c).2 := by
  rw [run, List.foldl_append]
  rfl

theorem pwm_programmed_iff (t : Timers) (cs : List PwmCall) (c : PwmCall) (h : c.InRange) :
    Programmed ((run t (cs ++ [c])).half (halfOf c.pin)) c ↔
      match digitalPinToPort c.pin with
      | none => Programmed ((run t cs).half (halfOf c.pin)) c
      | some _ => 0xFFFF < c.period ∨
          ((run t cs).half (halfOf c.pin)).Unscaled := by
  rw [run_append]
  cases hp : digitalPinToPort c.pin with
  | none => rw [pwmWrite_no_port hp]
  | some p =>
    rw [pwmWrite_programs h hp]
    exact h.program_iff _ (timerToOffset_lt _)

def resetTimers : Timers := ⟨fun _ => 0, fun _ => ⟨0, false, 0, 0, 0, 0⟩⟩

/-- The default frequency of analogWrite needs the prescaler and sets it. -/
theorem pwm_programmed_analog_write :
    Programmed ((run resetTimers [⟨9, 256, 128, 2000⟩, ⟨9, 255, 128, 490⟩]).half (halfOf 9)) ⟨9, 255, 128, 490⟩ :=
  (pwm_programmed_iff resetTimers [⟨9, 256, 128, 2000⟩] ⟨9, 255, 128, 490⟩
    ⟨by decide, by decide, by decide, by decide⟩).mpr (Or.inl (by decide))

/-- An analogWrite, then a tone of 2000 Hz on the same pin: the prescaler of the first call stays. -/
theorem pwm_stale_prescaler :
    let t := (tone ⟨false, 0, 0⟩ (analogWrite resetTimers 9 128).2 9 2000).2
    t.half (halfOf 9) = (run resetTimers [⟨9, 255, 128, 490⟩, ⟨9, 256, 128, 2000⟩]).half (halfOf 9) ∧
    (t.half (halfOf 9)).period = 256608 ∧ (⟨9, 256, 128, 2000⟩ : PwmCall).period = 60000 ∧
    ¬ Programmed (t.half (halfOf 9)) ⟨9, 256, 128, 2000⟩ := by
  intro t
  have hperiod : (t.half (halfOf 9)).period = 256608 := by decide +kernel
  refine ⟨rfl, hperiod, by decide, ?_⟩
  rintro ⟨h, -⟩
  rw [hperiod] at h
  exact absurd h (by decide)

end LogoCore.Pwm
