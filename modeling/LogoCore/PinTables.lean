import Mathlib.Data.UInt
import Mathlib.Data.List.Basic

namespace LogoCore.Pins

/-- The GPIO ports of the part; NOT_A_PORT is no value of this type. -/
inductive Port
  | pa
  | pb
  | pc
  | pd
  | pe
  | pf
  | pg
  | ph
  | pj
  | pk
  | pl
  | pm
  | pn
  | pp
  | pq
  | pr
  | ps
  | pt
  deriving DecidableEq

inductive TimerHalf
  | tima
  | timb
  deriving DecidableEq

def bv (n : ℕ) : UInt8 := UInt8.ofNat (2 ^ n)

def digitalPinToPortTable : List (Option Port) :=
  [none, none, some .pe, some .pc, some .pc, some .pc, some .pe, some .pd, some .pc, some .pb, some .pb,
   some .pp, some .pn, some .pn, some .pd, some .pd, none, some .ph, some .ph, some .pm, none, none, none,
   some .pe, some .pe, some .pe, some .pe, some .pd, some .pa, some .pm, some .pm, some .pl, some .pl, some .pl,
   some .pl, some .pl, some .pl, some .pg, some .pf, some .pf, some .pf, none, some .pd, some .pp, some .pp,
   some .pd, some .pd, some .pq, some .pp, some .pn, some .pn, some .pm, some .pq, some .pp, some .pq, some .pq,
   none, some .pa, some .pp, some .pm, none, none, none, some .pb, some .pb, some .pk, some .pk, some .pk,
   some .pk, some .pa, some .pa, some .pk, some .pk, some .ph, some .ph, some .pm, some .pm, some .pm, some .pk,
   some .pk, some .pg, some .pn, some .pn, some .pf, some .pf, some .pj, some .pj, some .pd, some .pa, some .pa,
   some .pa, some .pa, some .pl, some .pl, some .pb, some .pb]

def digitalPinToBitMaskTable : List UInt8 :=
  [0, 0, bv 4, bv 4, bv 5, bv 6, bv 5, bv 3, bv 7, bv 2, bv 3, bv 2, bv 3, bv 2, bv 0, bv 1, 0, bv 3, bv 2,
   bv 3, 0, 0, 0, bv 0, bv 1, bv 2, bv 3, bv 7, bv 6, bv 4, bv 5, bv 3, bv 2, bv 1, bv 0, bv 5, bv 4, bv 0,
   bv 3, bv 2, bv 1, 0, bv 2, bv 0, bv 1, bv 4, bv 5, bv 0, bv 4, bv 5, bv 4, bv 6, bv 1, bv 3, bv 3, bv 2, 0,
   bv 7, bv 5, bv 7, 0, 0, 0, bv 4, bv 5, bv 0, bv 1, bv 2, bv 3, bv 4, bv 5, bv 7, bv 6, bv 1, bv 0, bv 2,
   bv 1, bv 0, bv 5, bv 4, bv 1, bv 1, bv 0, bv 4, bv 0, bv 0, bv 1, bv 6, bv 0, bv 1, bv 2, bv 3, bv 6, bv 7,
   bv 0, bv 1]

-- 0 is both NOT_ON_TIMER and T0CCP0_0
def digitalPinToTimerTable : List ℕ :=
  [0, 0, 0, 0, 0, 0, 0, 9, 0, 29, 31, 0, 0, 0, 1, 3, 0, 0, 0, 20, 0, 0, 0, 0, 0, 0, 0, 27, 16, 22, 25, 0, 0, 0,
   0, 5, 2, 0, 0, 0, 0, 0, 6, 0, 0, 18, 21, 0, 0, 0, 0, 28, 0, 0, 0, 0, 0, 19, 0, 30, 0, 0, 0, 0, 0, 0, 0, 0, 0,
   12, 14, 0, 0, 0, 0, 17, 15, 13, 0, 0, 0, 0, 0, 0, 0, 0, 0, 24, 1, 4, 7, 10, 8, 11, 23, 26]

def timerToOffsetTable : List ℕ :=
  [0, 0, 0, 0, 0, 0, 1, 1, 1, 1, 1, 1, 2, 2, 2, 2, 3, 3, 3, 3, 3, 3, 4, 4, 4, 4, 4, 4, 5, 5, 5, 5]

def timerToAbTable : List TimerHalf :=
  [.tima, .tima, .tima, .timb, .timb, .timb, .tima, .tima, .tima, .timb, .timb, .timb, .tima, .tima, .timb,
   .timb, .tima, .tima, .tima, .timb, .timb, .timb, .tima, .tima, .tima, .timb, .timb, .timb, .tima, .tima,
   .timb, .timb]

def timerToPinConfigTable : List (Port × UInt8) :=
  [(.pd, bv 0), (.pa, bv 0), (.pl, bv 4), (.pd, bv 1), (.pa, bv 1), (.pl, bv 5), (.pd, bv 2), (.pa, bv 2),
   (.pl, bv 6), (.pd, bv 3), (.pa, bv 3), (.pl, bv 7), (.pa, bv 4), (.pm, bv 0), (.pa, bv 5), (.pm, bv 1),
   (.pa, bv 6), (.pm, bv 2), (.pd, bv 4), (.pa, bv 7), (.pm, bv 3), (.pd, bv 5), (.pm, bv 4), (.pb, bv 0),
   (.pd, bv 6), (.pm, bv 5), (.pb, bv 1), (.pd, bv 7), (.pm, bv 6), (.pb, bv 2), (.pm, bv 7), (.pb, bv 3)]

-- a pin is an index of the tables
def digitalPinToPort (pin : Fin 96) : Option Port := digitalPinToPortTable.getD pin none

def digitalPinToBitMask (pin : Fin 96) : UInt8 := digitalPinToBitMaskTable.getD pin 0

def digitalPinToTimer (pin : Fin 96) : ℕ := digitalPinToTimerTable.getD pin 0

def timerToOffset (timer : ℕ) : ℕ := timerToOffsetTable.getD timer 0

def timerToAb (timer : ℕ) : TimerHalf := timerToAbTable.getD timer .tima

def timerToPinConfig (timer : ℕ) : Port × UInt8 := timerToPinConfigTable.getD timer (.pd, bv 0)

end LogoCore.Pins
