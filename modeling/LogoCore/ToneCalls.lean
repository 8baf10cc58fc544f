import LogoCore.EventMachine
import LogoCore.PwmTimers

namespace LogoCore.Pwm

open Pins

def tickTimer : ℕ × TimerHalf := (4, .tima)

-- the mode registers that TimerConfigure writes for TIMER_CFG_PERIODIC
def periodicMode : UInt32 := 0x222

def unusedMode : UInt32 := 0x200

namespace Timers

def disable (t : Timers) (i : ℕ × TimerHalf) : Timers :=
  { t with half := Function.update t.half i { t.half i with enabled := false } }

def startTick (t : Timers) : Timers where
  cfg := Function.update t.cfg 4 0
  half :=
    let half := Function.update t.half (4, .timb) { t.half (4, .timb) with mode := unusedMode, enabled := false }
    Function.update half tickTimer { t.half tickTimer with mode := periodicMode, load := fCpu / 1000, enabled := true }

end Timers

/-- The variables of Tone.cpp, the timers, their interrupt masks, what each pin was last configured for, and
the port bits that GPIOPinConfigure assigned to a timer. -/
structure Buzzer where
  tone : Tone
  gDuration : Int32
  timers : Timers
  intEnabled : ℕ × TimerHalf → Bool
  drive : Fin 96 → Option PinDrive
  assigned : Port × UInt8 → Bool

namespace Buzzer

def start : Buzzer := ⟨⟨false, 0, 0⟩, 0, resetTimers, fun _ => false, fun _ => none, fun _ => false⟩

def Accepts (s : Buzzer) (pin : Fin 96) : Prop := s.tone.toneState = false ∨ pin = s.tone.currentPin

instance (s : Buzzer) (pin : Fin 96) : Decidable (s.Accepts pin) := inferInstanceAs (Decidable (_ ∨ _))

def configure (s : Buzzer) (pin : Fin 96) : Option PinDrive → Fin 96 → Option PinDrive
  | none => s.drive
  | some d => Function.update s.drive pin (some d)

def pwm (s : Buzzer) (pin : Fin 96) (frequency : UInt32) : Buzzer :=
  let written := pwmWrite s.timers ⟨pin, 256, 128, frequency⟩
  { s with
    timers := written.2
    drive := s.configure pin written.1
    assigned := Function.update s.assigned (timerToPinConfig (digitalPinToTimer pin)) true }

/-- The tone() with a duration. -/
def toneFor (s : Buzzer) (pin : Fin 96) (frequency duration : UInt32) : Buzzer :=
  match digitalPinToPort pin with
  | none => s
  | some _ =>
    if s.Accepts pin then
      let s := { s with tone := ⟨true, pin, digitalPinToTimer pin⟩, gDuration := duration.toInt32 }
      let s := s.pwm pin frequency
      { s with timers := s.timers.startTick, intEnabled := Function.update s.intEnabled tickTimer true }
    else s

/-- The tone() without a duration. -/
def toneOn (s : Buzzer) (pin : Fin 96) (frequency : UInt32) : Buzzer :=
  match digitalPinToPort pin with
  | none => s
  | some _ =>
    if s.Accepts pin then
      { s.pwm pin frequency with tone := { s.tone with toneTimer := digitalPinToTimer pin, toneState := true } }
    else s

def noTone (s : Buzzer) (pin : Fin 96) : Buzzer :=
  if digitalPinToTimer pin = s.tone.toneTimer then
    { s with
      tone := { s.tone with toneState := false }
      gDuration := 0
      timers := s.timers.disable (halfOf pin)
      intEnabled := Function.update s.intEnabled (halfOf pin) false
      drive := s.configure pin ((digitalPinToPort pin).map fun _ => .output false) }
  else s

def toneIntHandler (s : Buzzer) : Buzzer :=
  let s := { s with gDuration := s.gDuration - 1 }
  if s.gDuration ≤ 0 then
    let s := s.noTone s.tone.currentPin
    { s with intEnabled := Function.update s.intEnabled tickTimer false, timers := s.timers.disable tickTimer }
  else s

def driven (s : Buzzer) (pin : Fin 96) : Bool :=
  match s.drive pin with
  | some (.timer _) => true
  | some (.output _) | none => false

/-- The period and the match point of the square wave on a pin: it is left to the timer, its port bit is
assigned to it, and the timer runs half-width in PWM mode, with something to count. -/
def output (s : Buzzer) (pin : Fin 96) : Option (ℕ × ℕ) :=
  let h := s.timers.half (halfOf pin)
  let assigned := (digitalPinToPort pin).any fun port => s.assigned (port, digitalPinToBitMask pin)
  if s.driven pin ∧ assigned ∧ s.timers.cfg (halfOf pin).1 = 4 ∧ h.mode = pwmMode ∧ h.enabled ∧ 0 < h.period then
    some (h.period, h.matchPoint)
  else none

def Interrupts (s : Buzzer) : Prop :=
  s.intEnabled tickTimer = true ∧ (s.timers.half tickTimer).mode = periodicMode ∧
    (s.timers.half tickTimer).enabled = true

instance (s : Buzzer) : Decidable s.Interrupts := inferInstanceAs (Decidable (_ ∧ _ ∧ _))

def Ticks (s : Buzzer) : Prop :=
  s.Interrupts ∧ s.timers.cfg 4 = 0 ∧ (s.timers.half tickTimer).load = fCpu / 1000

end Buzzer

/-- What was asked for last: `remaining` milliseconds, or until noTone(). -/
structure Request where
  pin : Fin 96
  frequency : UInt32
  remaining : Option ℕ
deriving DecidableEq

inductive ToneEvent where
  | toneFor (pin : Fin 96) (frequency duration : UInt32)
  | toneOn (pin : Fin 96) (frequency : UInt32)
  | noTone (pin : Fin 96)
  | tick
deriving DecidableEq

namespace Request

def square (q : Request) : PwmCall := ⟨q.pin, 256, 128, q.frequency⟩

def wave (q : Request) : ℕ × ℕ := (q.square.period, q.square.matchPoint)

def Yields (r : Option Request) (pin : Fin 96) : Prop := ∀ q ∈ r, q.pin = pin

instance (r : Option Request) (pin : Fin 96) : Decidable (Yields r pin) :=
  match r with
  | none => isTrue nofun
  | some q => decidable_of_iff (q.pin = pin) (by simp [Yields])

def ask (r : Option Request) (new : Request) : Option Request := if Yields r new.pin then some new else r

def tick (q : Request) : Option Request :=
  match q.remaining with
  | none => some q
  | some n => if n ≤ 1 then none else some { q with remaining := some (n - 1) }

def step (r : Option Request) : ToneEvent → Option Request
  | .toneFor pin frequency duration =>
    ask r ⟨pin, frequency, if duration = 0 then none else some duration.toNat⟩
  | .toneOn pin frequency => ask r ⟨pin, frequency, none⟩
  | .noTone pin => r.filter fun q => q.pin ≠ pin
  | .tick => r.bind tick

end Request

structure ToneSession where
  buzzer : Buzzer
  request : Option Request

namespace ToneSession

def start : ToneSession := ⟨.start, none⟩

def step (x : ToneSession) (e : ToneEvent) : ToneSession where
  buzzer := match e with
    | .toneFor pin frequency duration => x.buzzer.toneFor pin frequency duration
    | .toneOn pin frequency => x.buzzer.toneOn pin frequency
    | .noTone pin => x.buzzer.noTone pin
    | .tick => x.buzzer.toneIntHandler
  request := Request.step x.request e

/-- Calls are for pins with a timer; the handler runs on an interrupt of the tick timer. -/
def Enabled (x : ToneSession) : ToneEvent → Prop
  | .toneFor pin _ _ | .toneOn pin _ | .noTone pin => digitalPinToTimer pin ≠ 0
  | .tick => x.buzzer.Interrupts

instance (x : ToneSession) : (e : ToneEvent) → Decidable (x.Enabled e)
  | .toneFor _ _ _ | .toneOn _ _ | .noTone _ => inferInstanceAs (Decidable (_ ≠ _))
  | .tick => inferInstanceAs (Decidable (_ ∧ _ ∧ _))

structure Governs (x : ToneSession) : Prop where
  output : ∀ pin, x.buzzer.output pin = (x.request.filter fun q => q.pin = pin).map Request.wave
  accepts : ∀ pin, x.buzzer.Accepts pin ↔ Request.Yields x.request pin
  ticks : ∀ q ∈ x.request, q.remaining ≠ none → x.buzzer.Ticks

end ToneSession

def toneMachine : Machine ToneSession ToneEvent := ⟨ToneSession.Enabled, ToneSession.step⟩

instance (x : ToneSession) (e : ToneEvent) : Decidable (toneMachine.enabled x e) :=
  inferInstanceAs (Decidable (x.Enabled e))

namespace ToneSession

/-- The last request governs for as long as no further call is made. -/
def Endures (x : ToneSession) : Prop :=
  ∀ n, toneMachine.Legal x (List.replicate n .tick) → (toneMachine.run x (List.replicate n .tick)).Governs

def Suits (pin : Fin 96) : Prop :=
  (halfOf pin).1 ≠ 4 ∧ digitalPinToPort pin = some (timerToPinConfig (digitalPinToTimer pin)).1 ∧
    digitalPinToBitMask pin = (timerToPinConfig (digitalPinToTimer pin)).2

instance (pin : Fin 96) : Decidable (Suits pin) := inferInstanceAs (Decidable (_ ∧ _ ∧ _))

/-- The period of the frequency is one of 24 bits, and PWMWrite sets the prescaler for it or finds it unset. -/
def Fits (x : ToneSession) (pin : Fin 96) (frequency : UInt32) : Prop :=
  let period := 120000000 / frequency.toNat
  0 < period ∧ period < 2 ^ 24 ∧ (0xFFFF < period ∨ (x.buzzer.timers.half (halfOf pin)).Unscaled)

instance (x : ToneSession) (pin : Fin 96) (frequency : UInt32) : Decidable (x.Fits pin frequency) :=
  inferInstanceAs (Decidable (_ ∧ _ ∧ (_ ∨ _ ∧ _)))

/-- A tone with a duration lasts between one and 2^31 milliseconds; one without is asked for on the pin of
the last one with a duration, which has run out; noTone() of another pin is not for the timer that sounds. -/
def Meets (x : ToneSession) : ToneEvent → Prop
  | .toneFor pin frequency duration =>
    x.buzzer.Accepts pin → Suits pin ∧ x.Fits pin frequency ∧ 0 < duration.toNat ∧ duration.toNat ≤ 2 ^ 31
  | .toneOn pin frequency =>
    x.buzzer.Accepts pin → pin = x.buzzer.tone.currentPin ∧ x.Fits pin frequency ∧ ¬ x.buzzer.Interrupts
  | .noTone pin => x.buzzer.Accepts pin ∨ digitalPinToTimer pin ≠ x.buzzer.tone.toneTimer
  | .tick => True

instance (x : ToneSession) : (e : ToneEvent) → Decidable (x.Meets e)
  | .toneFor _ _ _ => inferInstanceAs (Decidable (_ → _ ∧ _ ∧ _ ∧ _))
  | .toneOn _ _ => inferInstanceAs (Decidable (_ → _ ∧ _ ∧ _))
  | .noTone _ => inferInstanceAs (Decidable (_ ∨ _))
  | .tick => isTrue trivial

end ToneSession

end LogoCore.Pwm
