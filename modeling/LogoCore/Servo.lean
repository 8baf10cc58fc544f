import Mathlib.Data.UInt

namespace LogoCore.Servo

structure ServoEntry where
  pinNumber : UInt32
  pulseWidth : UInt32
  enabled : Bool
  deriving DecidableEq

structure PinWrite where
  pin : UInt8
  high : Bool
  deriving DecidableEq

/-- The table and the variables common to all Servo objects, with the ranges of the objects that own the entries. -/
structure Servos where
  servos : Fin 8 → ServoEntry
  remainderPulseWidth : UInt32
  currentServo : Fin 9
  min : Fin 8 → Int32
  max : Fin 8 → Int32

namespace Servos

def calculatePeriodRemainder (s : Servos) : Servos :=
  { s with remainderPulseWidth := 20000 - (List.finRange 8).foldl (fun sum i => sum + (s.servos i).pulseWidth) 0 }

-- the ranges of an object are whatever its memory holds until attach sets them
def initServo (min max : Fin 8 → Int32) : Servos :=
  calculatePeriodRemainder ⟨fun _ => ⟨0, 1500, false⟩, 0, 0, min, max⟩

def setEntry (s : Servos) (k : Fin 8) (e : ServoEntry) : Servos := { s with servos := Function.update s.servos k e }

def writeMicroseconds (s : Servos) (k : Fin 8) (value : Int32) : Servos :=
  let value := if value < s.min k then s.min k else value
  let value := if value > s.max k then s.max k else value
  (s.setEntry k { s.servos k with pulseWidth := value.toUInt32 }).calculatePeriodRemainder

def map (x inMin inMax outMin outMax : Int32) : Int32 := (x - inMin) * (outMax - outMin) / (inMax - inMin) + outMin

/-- The microseconds that write() hands on: values below 544 are degrees. -/
def microseconds (min max value : Int32) : Int32 :=
  if value < 544 then
    let value := if value < 0 then 0 else value
    let value := if value > 180 then 180 else value
    map value 0 180 min max
  else value

def write (s : Servos) (k : Fin 8) (value : Int32) : Servos :=
  s.writeMicroseconds k (microseconds (s.min k) (s.max k) value)

def readMicroseconds (s : Servos) (k : Fin 8) : Int32 := (s.servos k).pulseWidth.toInt32

def read (s : Servos) (k : Fin 8) : Int32 := map (s.readMicroseconds k + 1) (s.min k) (s.max k) 0 180

def attach (s : Servos) (k : Fin 8) (pin : UInt32) (min max : Int32) : List PinWrite × Servos :=
  let s := { s with min := Function.update s.min k min, max := Function.update s.max k max }
  let s := (s.setEntry k { s.servos k with pinNumber := pin }).calculatePeriodRemainder
  ([⟨pin.toUInt8, false⟩], s.setEntry k { s.servos k with enabled := true })

def detach (s : Servos) (k : Fin 8) : List PinWrite × Servos :=
  let s := (s.setEntry k { s.servos k with pulseWidth := 1500, enabled := false }).calculatePeriodRemainder
  ([⟨(s.servos k).pinNumber.toUInt8, false⟩], s)

def attached (s : Servos) (k : Fin 8) : Bool := (s.servos k).enabled

/-- servos[i]; `stray` is what memory holds outside the table. -/
def entry (s : Servos) (stray : ServoEntry) (i : ℤ) : ServoEntry :=
  if h : 0 ≤ i ∧ i < 8 then s.servos ⟨i.toNat, by omega⟩ else stray

structure HandlerRun where
  load : UInt32
  reads : List ℤ
  writes : List PinWrite
  after : Servos

def ticksPerMicrosecond : UInt32 := 120

def advance (c : Fin 9) : Fin 9 := if h : c.val < 8 then ⟨c.val + 1, by omega⟩ else 0

def servoIntHandler (s : Servos) (stray : ServoEntry) : HandlerRun :=
  let c : ℤ := s.currentServo.val
  let current := s.entry stray c
  let previous := s.entry stray (c - 1)
  { load := ticksPerMicrosecond * if c < 8 then current.pulseWidth else s.remainderPulseWidth
    reads := (if c < 8 then [c] else [])
      ++ (if c > 0 then (c - 1) :: (if previous.enabled then [c - 1] else []) else [])
      ++ (if c < 8 then (c - 1) :: (if previous.enabled then [c] else []) else [])
    writes := (if c > 0 ∧ previous.enabled then [⟨previous.pinNumber.toUInt8, false⟩] else [])
      -- the flag tested is that of the entry before the one that is started
      ++ (if c < 8 ∧ previous.enabled then [⟨current.pinNumber.toUInt8, true⟩] else [])
    after := { s with currentServo := advance s.currentServo } }

end Servos

inductive ServoEvent
  | attach (k : Fin 8) (pin : UInt32) (min max : Int32)
  | write (k : Fin 8) (value : Int32)
  | writeMicroseconds (k : Fin 8) (value : Int32)
  | detach (k : Fin 8)
  | interrupt (stray : ServoEntry)

def Servos.step (s : Servos) : ServoEvent → Servos
  | .attach k pin min max => (s.attach k pin min max).2
  | .write k value => s.write k value
  | .writeMicroseconds k value => s.writeMicroseconds k value
  | .detach k => (s.detach k).2
  | .interrupt stray => (s.servoIntHandler stray).after

namespace Servos

variable (s : Servos) (stray : ServoEntry)

theorem entry_fin (k : Fin 8) : s.entry stray k.val = s.servos k := by
  have hin : (0 : ℤ) ≤ k.val ∧ (k.val : ℤ) < 8 := by omega
  rw [entry, dif_pos hin]
  rfl

theorem advance_val (c : Fin 9) : (advance c).val = (c.val + 1) % 9 := by
  unfold advance
  split
  · rw [Nat.mod_eq_of_lt (by omega)]
  · have : c.val = 8 := by omega
    rw [this]
    rfl

end Servos

end LogoCore.Servo
