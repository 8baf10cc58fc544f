import LogoCore.ToneCalls

namespace LogoCore.Pwm

open Pins

theorem port_of_timer {pin : Fin 96} (h : digitalPinToTimer pin ≠ 0) :
    ∃ port, digitalPinToPort pin = some port := by
  have hall : ∀ pin : Fin 96, digitalPinToTimer pin ≠ 0 → (digitalPinToPort pin).isSome := by decide +kernel
  exact Option.isSome_iff_exists.mp (hall pin h)

theorem pinConfig_ne {pin : Fin 96} (h : digitalPinToTimer pin ≠ 0) :
    timerToPinConfig (digitalPinToTimer pin) ≠ (.pd, bv 0) := by
  have hall : ∀ pin : Fin 96, digitalPinToTimer pin ≠ 0 →
    timerToPinConfig (digitalPinToTimer pin) ≠ (.pd, bv 0) := by decide +kernel
  exact hall pin h

theorem own_or_pd0 {pin : Fin 96} (h : digitalPinToTimer pin ≠ 0) :
    (digitalPinToPort pin = some (timerToPinConfig (digitalPinToTimer pin)).1 ∧
      digitalPinToBitMask pin = (timerToPinConfig (digitalPinToTimer pin)).2) ∨
    (digitalPinToPort pin = some .pd ∧ digitalPinToBitMask pin = bv 0) := by
  have hall : ∀ pin : Fin 96, digitalPinToTimer pin ≠ 0 →
    (digitalPinToPort pin = some (timerToPinConfig (digitalPinToTimer pin)).1 ∧
      digitalPinToBitMask pin = (timerToPinConfig (digitalPinToTimer pin)).2) ∨
    (digitalPinToPort pin = some .pd ∧ digitalPinToBitMask pin = bv 0) := by decide +kernel
  exact hall pin h

theorem toInt32_eq (duration : UInt32) : duration.toInt32 = Int32.ofNat duration.toNat := by
  rw [← Int32.toBitVec_inj]
  simp

theorem ofNat_sub_one {n : ℕ} (h : 0 < n) : Int32.ofNat n - 1 = Int32.ofNat (n - 1) := by
  obtain ⟨m, rfl⟩ := Nat.exists_eq_succ_of_ne_zero h.ne'
  rw [Nat.succ_eq_add_one, Nat.add_sub_cancel, Int32.ofNat_add]
  exact Int32.add_sub_cancel _ _

theorem ofNat_nonpos_iff {n : ℕ} (h : n < 2 ^ 31) : Int32.ofNat n ≤ 0 ↔ n = 0 := by
  rw [Int32.le_iff_toInt_le, Int32.toInt_ofNat_of_lt h]
  exact Int.natCast_nonpos_iff

theorem toInt_sub_one {n : Int32} (h : ¬ n ≤ 0) : (n - 1).toInt = n.toInt - 1 := by
  rw [Int32.le_iff_toInt_le] at h
  have hlt := n.toInt_lt
  rw [Int32.toInt_sub]
  change (n.toInt - 1).bmod (2 ^ 32) = n.toInt - 1
  change ¬ n.toInt ≤ 0 at h
  rw [Int.bmod_eq_of_le] <;> omega

theorem ofNat_nonpos_of_large {n : ℕ} (h : 2 ^ 31 ≤ n) (hlt : n < 2 ^ 32) : Int32.ofNat n ≤ 0 := by
  rw [Int32.le_iff_toInt_le]
  change (BitVec.ofNat 32 n).toInt ≤ 0
  rw [BitVec.toInt_eq_toNat_cond, BitVec.toNat_ofNat, Nat.mod_eq_of_lt hlt, if_neg (by omega)]
  omega

section Timers

variable {t : Timers} {pin : Fin 96} {frequency : UInt32}

structure Plays (t : Timers) (pin : Fin 96) (frequency : UInt32) : Prop where
  cfg : t.cfg (halfOf pin).1 = 4
  mode : (t.half (halfOf pin)).mode = pwmMode
  enabled : (t.half (halfOf pin)).enabled = true
  programmed : Programmed (t.half (halfOf pin)) ⟨pin, 256, 128, frequency⟩
  audible : 0 < 120000000 / frequency.toNat

theorem pwmWrite_square {port : Port} (h : digitalPinToPort pin = some port) :
    pwmWrite t ⟨pin, 256, 128, frequency⟩ =
      (some (.timer (digitalPinToTimer pin)),
        { cfg := Function.update t.cfg (halfOf pin).1 4
          half := Function.update t.half (halfOf pin) ((t.half (halfOf pin)).program (halfOf pin).1 (fCpu / frequency)
            ((256 - 128) * (fCpu / frequency) / 256)) }) := by
  have hzero : ¬ (128 : UInt32) = 0 := by decide
  have hge : ¬ (128 : UInt32) ≥ 256 := by decide
  simp only [pwmWrite, hzero, hge, ↓reduceIte, h]

theorem program_running (h : HalfTimer) (offset : ℕ) (periodPwm matchPwm : UInt32) :
    (h.program offset periodPwm matchPwm).mode = pwmMode ∧ (h.program offset periodPwm matchPwm).enabled = true := by
  unfold HalfTimer.program
  split_ifs <;> exact ⟨rfl, rfl⟩

theorem square_inRange (h : 120000000 / frequency.toNat < 2 ^ 24) : PwmCall.InRange ⟨pin, 256, 128, frequency⟩ := by
  refine ⟨show (0 : UInt32) < 128 by decide, show (128 : UInt32) < 256 by decide, h, ?_⟩
  change (256 - 128) * (120000000 / frequency.toNat) < 2 ^ 32
  omega

theorem programmed_pwmWrite {port : Port} (h : digitalPinToPort pin = some port) :
    Programmed ((pwmWrite t ⟨pin, 256, 128, frequency⟩).2.half (halfOf pin)) ⟨pin, 256, 128, frequency⟩ ↔
      120000000 / frequency.toNat < 2 ^ 24 ∧
        (0xFFFF < 120000000 / frequency.toNat ∨ (t.half (halfOf pin)).Unscaled) := by
  by_cases hlt : 120000000 / frequency.toNat < 2 ^ 24
  · have hrange : PwmCall.InRange ⟨pin, 256, 128, frequency⟩ := square_inRange hlt
    have hiff := hrange.program_iff (t.half (halfOf pin)) (timerToOffset_lt (digitalPinToTimer pin))
    rw [pwmWrite_programs hrange h]
    exact hiff.trans (and_iff_right hlt).symm
  · refine iff_of_false (fun hp => hlt ?_) fun hp => hlt hp.1
    have hperiod : _ = 120000000 / frequency.toNat := hp.period
    rw [← hperiod]
    exact HalfTimer.period_lt _

theorem plays_pwmWrite {port : Port} (h : digitalPinToPort pin = some port)
    (hpos : 0 < 120000000 / frequency.toNat) (hlt : 120000000 / frequency.toNat < 2 ^ 24)
    (hscale : 0xFFFF < 120000000 / frequency.toNat ∨ (t.half (halfOf pin)).Unscaled) :
    Plays (pwmWrite t ⟨pin, 256, 128, frequency⟩).2 pin frequency := by
  have hprogrammed := (programmed_pwmWrite (t := t) h).mpr ⟨hlt, hscale⟩
  obtain ⟨hmode, henabled⟩ := program_running (t.half (halfOf pin)) (halfOf pin).1 (fCpu / frequency)
    ((256 - 128) * (fCpu / frequency) / 256)
  refine ⟨?_, ?_, ?_, hprogrammed, hpos⟩ <;> rw [pwmWrite_square h] <;> dsimp only <;> rw [Function.update_self]
  · exact hmode
  · exact henabled

theorem halfOf_ne_tick {half : TimerHalf} (h : (halfOf pin).1 ≠ 4) : halfOf pin ≠ (4, half) :=
  fun heq => h (congrArg Prod.fst heq)

theorem startTick_half (h : (halfOf pin).1 ≠ 4) : t.startTick.half (halfOf pin) = t.half (halfOf pin) := by
  simp only [Timers.startTick, tickTimer]
  rw [Function.update_of_ne (halfOf_ne_tick h), Function.update_of_ne (halfOf_ne_tick h)]

theorem Plays.startTick (h : Plays t pin frequency) (hpin : (halfOf pin).1 ≠ 4) :
    Plays t.startTick pin frequency := by
  have hcfg : t.startTick.cfg (halfOf pin).1 = t.cfg (halfOf pin).1 := Function.update_of_ne hpin _ _
  have hhalf := startTick_half (t := t) hpin
  refine ⟨?_, ?_, ?_, ?_, h.audible⟩
  · rw [hcfg, h.cfg]
  · rw [hhalf, h.mode]
  · rw [hhalf, h.enabled]
  · rw [hhalf]
    exact h.programmed

theorem pwmWrite_tick {port : Port} (h : digitalPinToPort pin = some port) (hpin : (halfOf pin).1 ≠ 4) :
    (pwmWrite t ⟨pin, 256, 128, frequency⟩).2.half tickTimer = t.half tickTimer := by
  rw [pwmWrite_square h]
  exact Function.update_of_ne (halfOf_ne_tick hpin).symm _ _

end Timers

namespace Buzzer

variable {s : Buzzer} {pin p : Fin 96} {frequency duration : UInt32} {port : Port}

theorem output_of_not_driven (h : s.driven p = false) : s.output p = none := by
  simp [output, h]

theorem output_of_cfg (h : s.timers.cfg (halfOf p).1 ≠ 4) : s.output p = none := by
  simp [output, h]

theorem output_of_disabled (h : (s.timers.half (halfOf p)).enabled = false) : s.output p = none := by
  simp [output, h]

theorem output_of_unassigned (hp : digitalPinToPort p = some port)
    (h : s.assigned (port, digitalPinToBitMask p) = false) : s.output p = none := by
  simp [output, hp, h]

theorem output_of_plays (hd : s.driven p = true) (hp : digitalPinToPort p = some port)
    (ha : s.assigned (port, digitalPinToBitMask p) = true) (h : Plays s.timers p frequency) :
    s.output p = some (120000000 / frequency.toNat, (⟨p, 256, 128, frequency⟩ : PwmCall).matchPoint) := by
  have hperiod : (s.timers.half (halfOf p)).period = 120000000 / frequency.toNat := h.programmed.period
  have haudible := h.audible
  rw [← hperiod] at haudible ⊢
  simp [output, hd, hp, ha, h.cfg, h.mode, h.enabled, haudible, h.programmed.matchPoint]

theorem half_of_output {w : ℕ × ℕ} (h : s.output p = some w) :
    0 < w.1 ∧ (s.timers.half (halfOf p)).period = w.1 ∧ (s.timers.half (halfOf p)).matchPoint = w.2 := by
  unfold output at h
  dsimp only at h
  split_ifs at h with hc
  obtain rfl := Option.some.inj h
  exact ⟨hc.2.2.2.2.2, rfl, rfl⟩

theorem driven_congr {u : Buzzer} (h : u.drive p = s.drive p) : u.driven p = s.driven p := by
  simp only [driven, h]

theorem toneFor_accepted (hp : digitalPinToPort pin = some port) (ha : s.Accepts pin) :
    s.toneFor pin frequency duration =
      { tone := ⟨true, pin, digitalPinToTimer pin⟩
        gDuration := duration.toInt32
        timers := (pwmWrite s.timers ⟨pin, 256, 128, frequency⟩).2.startTick
        intEnabled := Function.update s.intEnabled tickTimer true
        drive := Function.update s.drive pin (some (.timer (digitalPinToTimer pin)))
        assigned := Function.update s.assigned (timerToPinConfig (digitalPinToTimer pin)) true } := by
  simp only [toneFor, hp, ha, ↓reduceIte, pwm, configure, pwmWrite_square hp]

theorem toneOn_accepted (hp : digitalPinToPort pin = some port) (ha : s.Accepts pin) :
    s.toneOn pin frequency =
      { s with
        tone := ⟨true, s.tone.currentPin, digitalPinToTimer pin⟩
        timers := (pwmWrite s.timers ⟨pin, 256, 128, frequency⟩).2
        drive := Function.update s.drive pin (some (.timer (digitalPinToTimer pin)))
        assigned := Function.update s.assigned (timerToPinConfig (digitalPinToTimer pin)) true } := by
  simp only [toneOn, hp, ha, ↓reduceIte, pwm, configure, pwmWrite_square hp]

theorem toneFor_refused (ha : ¬ s.Accepts pin) : s.toneFor pin frequency duration = s := by
  unfold toneFor
  split
  · rfl
  · rw [if_neg ha]

theorem toneOn_refused (ha : ¬ s.Accepts pin) : s.toneOn pin frequency = s := by
  unfold toneOn
  split
  · rfl
  · rw [if_neg ha]

theorem driven_noTone (h : digitalPinToTimer pin = s.tone.toneTimer) (hp : digitalPinToPort pin = some port) :
    (s.noTone pin).driven pin = false := by
  simp [noTone, h, driven, configure, hp]

theorem driven_of_noTone (h : (s.noTone pin).driven p = true) : s.driven p = true := by
  by_cases ht : digitalPinToTimer pin = s.tone.toneTimer
  · cases hp : digitalPinToPort pin with
    | none =>
      rw [driven_congr (s := s) (by simp [noTone, ht, configure, hp])] at h
      exact h
    | some port =>
      by_cases hpin : p = pin
      · subst hpin
        rw [driven_noTone ht hp] at h
        exact absurd h (by simp)
      · rw [driven_congr (s := s) (by simp [noTone, ht, configure, hp, hpin])] at h
        exact h
  · rwa [noTone, if_neg ht] at h

theorem toneIntHandler_running (h : ¬ s.gDuration - 1 ≤ 0) :
    s.toneIntHandler = { s with gDuration := s.gDuration - 1 } := by
  simp only [toneIntHandler, h, ↓reduceIte]

theorem toneIntHandler_expired (h : s.gDuration - 1 ≤ 0)
    (ht : s.tone.toneTimer = digitalPinToTimer s.tone.currentPin) :
    s.toneIntHandler =
      let u := s.noTone s.tone.currentPin
      { u with
        intEnabled := Function.update u.intEnabled tickTimer false
        timers := u.timers.disable tickTimer } := by
  simp only [toneIntHandler, h, noTone, ht, ↓reduceIte]
  rfl

theorem output_expired (h : s.gDuration - 1 ≤ 0) (ht : s.tone.toneTimer = digitalPinToTimer s.tone.currentPin)
    (hp : digitalPinToPort s.tone.currentPin = some port) : s.toneIntHandler.output s.tone.currentPin = none := by
  apply output_of_not_driven
  rw [toneIntHandler_expired h ht]
  exact driven_noTone ht.symm hp

theorem interrupts_toneOn (frequency : UInt32) (hp : digitalPinToPort pin = some port) (ha : s.Accepts pin)
    (hpin : (halfOf pin).1 ≠ 4) : (s.toneOn pin frequency).Interrupts ↔ s.Interrupts := by
  rw [toneOn_accepted hp ha, Interrupts, pwmWrite_tick hp hpin]
  rfl

theorem ticks_started {t : Timers} (hi : s.intEnabled tickTimer = true) (ht : s.timers = t.startTick) : s.Ticks := by
  refine ⟨⟨hi, ?_, ?_⟩, ?_, ?_⟩ <;> rw [ht] <;> simp only [Timers.startTick, Function.update_self]

end Buzzer

end LogoCore.Pwm
