import LogoCore.EventMachine
import LogoCore.PinTables

namespace LogoCore.Pins

inductive GpioMode
  | lowLevel
  | bothEdges
  | risingEdge
  | fallingEdge

def lm4fMode (mode : ℤ) : Option GpioMode :=
  if mode = 0 then some .lowLevel
  else if mode = 4 then some .bothEdges
  else if mode = 2 then some .risingEdge
  else if mode = 3 then some .fallingEdge
  else none

abbrev CbFuncs (F : Type) := Port → ℕ → Option F

section Model

variable {F : Type}

def store (t : CbFuncs F) (p : Port) (i : ℕ) (f : Option F) : CbFuncs F :=
  fun q j => if q = p ∧ j = i then f else t q j

-- the loop over the bits of the mask, from `i` on
def bitIndexFrom : ℕ → ℕ → UInt8 → ℕ
  | 0, i, _ => i
  | n + 1, i, bit => if bit &&& 1 = 1 then i else bitIndexFrom n (i + 1) (bit >>> 1)

def bitIndex (bit : UInt8) : ℕ := bitIndexFrom 8 0 bit

def portCases : List Port :=
  [.pa, .pb, .pc, .pd, .pe, .pf, .pg, .ph, .pj, .pk, .pl, .pm, .pn, .pp, .pq, .pr, .ps, .pt]

def casesFrom (p : Port) : List Port := portCases.dropWhile (· ≠ p)

def attachInterrupt (t : CbFuncs F) (pin : Fin 96) (userFunc : Option F) (mode : ℤ) : CbFuncs F :=
  match lm4fMode mode, digitalPinToPort pin with
  | none, _ => t
  -- portBase is 0 and matches no case
  | some _, none => t
  | some _, some p => store t p (bitIndex (digitalPinToBitMask pin)) userFunc

def detachInterrupt (t : CbFuncs F) (pin : Fin 96) : CbFuncs F :=
  match digitalPinToPort pin with
  | none => t
  | some p => (casesFrom p).foldl (fun t q => store t q (bitIndex (digitalPinToBitMask pin)) none) t

-- the callbacks that are called, in order
def handlerLoop (funcs : ℕ → Option F) : ℕ → ℕ → UInt32 → List F
  | 0, _, _ => []
  | n + 1, i, isr =>
    if isr &&& 1 = 0 then handlerLoop funcs n (i + 1) (isr >>> 1)
    else (funcs i).toList ++ handlerLoop funcs n (i + 1) (isr >>> 1)

def gpioxIntHandler (isr : UInt32) (funcs : ℕ → Option F) : List F := handlerLoop funcs 8 0 isr

end Model

section Map

variable {F : Type}

def callbacksOf (isr : UInt32) (funcs : ℕ → Option F) : List F :=
  ((List.range 8).filter fun i => isr.toNat.testBit i).filterMap funcs

theorem and_one_eq_zero_iff (isr : UInt32) : isr &&& 1 = 0 ↔ isr.toNat.testBit 0 = false := by
  rw [← UInt32.toNat_inj, UInt32.toNat_and, Nat.testBit_zero]
  simp only [UInt32.toNat_one, UInt32.toNat_zero, Nat.and_one_is_mod, decide_eq_false_iff_not]
  omega

theorem shift_testBit (isr : UInt32) (k : ℕ) : (isr >>> 1).toNat.testBit k = isr.toNat.testBit (k + 1) := by
  rw [UInt32.toNat_shiftRight, Nat.testBit_shiftRight, UInt32.toNat_one, Nat.add_comm]

theorem handlerLoop_eq (funcs : ℕ → Option F) (n i : ℕ) (isr : UInt32) :
    handlerLoop funcs n i isr = ((List.range' i n).filter fun j => isr.toNat.testBit (j - i)).filterMap funcs := by
  induction n generalizing i isr with
  | zero => rfl
  | succ n ih =>
    have htail : ((List.range' (i + 1) n).filter fun j => (isr >>> 1).toNat.testBit (j - (i + 1))) =
        (List.range' (i + 1) n).filter fun j => isr.toNat.testBit (j - i) := by
      apply List.filter_congr
      intro j hj
      have hlt := (List.mem_range'_1.mp hj).1
      rw [shift_testBit, show j - (i + 1) + 1 = j - i by omega]
    rw [handlerLoop, ih, htail, List.range'_succ, List.filter_cons, Nat.sub_self]
    by_cases hbit : isr.toNat.testBit 0 = true
    · rw [if_neg (by rw [and_one_eq_zero_iff, hbit]; decide), if_pos hbit, List.filterMap_cons]
      cases funcs i <;> rfl
    · rw [if_pos ((and_one_eq_zero_iff isr).mpr (by simpa using hbit)), if_neg hbit]

theorem gpioxIntHandler_eq (isr : UInt32) (funcs : ℕ → Option F) :
    gpioxIntHandler isr funcs = callbacksOf isr funcs := by
  rw [gpioxIntHandler, handlerLoop_eq, callbacksOf, List.range_eq_range']
  rfl

theorem callbacksOf_congr {m m' : ℕ → Option F} (h : ∀ i < 8, m i = m' i) (isr : UInt32) :
    callbacksOf isr m = callbacksOf isr m' := by
  apply List.filterMap_congr
  intro i hi
  exact h i (List.mem_range.mp (List.mem_filter.mp hi).1)

theorem callbacksOf_bv (m : ℕ → Option F) {i : ℕ} (h : i < 8) :
    callbacksOf (UInt32.ofNat (2 ^ i)) m = (m i).toList := by
  have hbits : ∀ i < 8, ((List.range 8).filter fun j => (UInt32.ofNat (2 ^ i)).toNat.testBit j) = [i] := by decide
  rw [callbacksOf, hbits i h]
  cases hm : m i <;> simp [hm]

end Map

section Tables

variable {F : Type} (t : CbFuncs F)

theorem store_self (p : Port) (i : ℕ) (f : Option F) : store t p i f p i = f := if_pos ⟨rfl, rfl⟩

theorem store_other {p q : Port} {i j : ℕ} (h : ¬ (q = p ∧ j = i)) (f : Option F) : store t p i f q j = t q j :=
  if_neg h

theorem bitIndex_lt {pin : Fin 96} {p : Port} (h : digitalPinToPort pin = some p) :
    bitIndex (digitalPinToBitMask pin) < 8 := by
  have hall : ∀ pin, (digitalPinToPort pin).isSome → bitIndex (digitalPinToBitMask pin) < 8 := by decide +kernel
  apply hall
  rw [h]
  rfl

theorem foldl_store_none (ps : List Port) (i : ℕ) (q : Port) (j : ℕ) :
    ps.foldl (fun t q => store t q i none) t q j = if q ∈ ps ∧ j = i then none else t q j := by
  induction ps generalizing t with
  | nil => simp
  | cons p ps ih =>
    rw [List.foldl_cons, ih, store]
    grind

end Tables

end LogoCore.Pins
