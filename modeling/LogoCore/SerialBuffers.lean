import LogoCore.SerialReception

namespace LogoCore.Serial

open HardwareSerial

inductive PortEvent
  | setBufferSize (txsize rxsize : ℕ)
  | begin (txOk rxOk : Bool) (fresh : ℕ → UInt8)
  | setModule (txOk rxOk : Bool) (fresh : ℕ → UInt8)
  | write (c : UInt8)
  | read
  | peek
  | available
  | endSerial
  | uartInt (txInt rxInt : Bool) (fifo : List UInt32)

structure PortRun where
  serial : HardwareSerial
  hung : Bool

namespace PortRun

def ofResult (p : PortRun) : Option HardwareSerial → PortRun
  | none => { p with hung := true }
  | some s => { p with serial := s }

def step (p : PortRun) : PortEvent → PortRun
  | .setBufferSize txsize rxsize => { p with serial := p.serial.setBufferSize txsize rxsize }
  | .begin txOk rxOk fresh => p.ofResult (p.serial.begin txOk rxOk fresh)
  | .setModule txOk rxOk fresh => p.ofResult (p.serial.setModule txOk rxOk fresh)
  | .write c => p.ofResult ((p.serial.write c).map Prod.snd)
  | .read => { p with serial := p.serial.read.2 }
  | .peek => { p with serial := p.serial.peek.2 }
  | .available => p
  | .endSerial => p.ofResult p.serial.endSerial
  | .uartInt txInt rxInt fifo => p.ofResult ((p.serial.uartIntHandler txInt rxInt fifo).map Prod.snd)

def Safe (p : PortRun) : Prop := (∀ a ∈ p.serial.accesses, a.index < a.allocated) ∧ p.hung = false

end PortRun

def portMachine : Machine PortRun PortEvent := ⟨fun _ _ => True, PortRun.step⟩

/-- A buffer is used only while its size is not larger than its block, and a transmit buffer of size 1 not at all. -/
def Fitting (p : PortRun) : PortEvent → Prop
  | .write _ => p.serial.tx.size ≤ p.serial.txAllocated ∧ p.serial.tx.size ≠ 1
  | .read | .peek => p.serial.rx.size ≤ p.serial.rxAllocated
  | .uartInt _ _ _ => p.serial.rx.size ≤ p.serial.rxAllocated
  | _ => True

structure HardwareSerial.Settled (s : HardwareSerial) : Prop where
  idle : s.tx.IsEmpty
  txSize : 0 < s.tx.size
  rxSize : 0 < s.rx.size
  tx : s.txAllocated = 0 ∨ s.tx.writeIndex < s.txAllocated
  rxRead : s.rxAllocated = 0 ∨ s.rx.readIndex < s.rxAllocated
  rxWrite : s.rxAllocated = 0 ∨ s.rx.writeIndex < s.rxAllocated
  inside : ∀ a ∈ s.accesses, a.index < a.allocated

section Inside

variable {s : HardwareSerial}

theorem inside_append {as bs : List Access} (h : ∀ a ∈ as, a.index < a.allocated)
    (h' : ∀ a ∈ bs, a.index < a.allocated) : ∀ a ∈ as ++ bs, a.index < a.allocated :=
  List.forall_mem_append.mpr ⟨h, h'⟩

theorem not_full_of_idle (hidle : s.tx.IsEmpty) (hpos : 0 < s.tx.size) (hone : s.tx.size ≠ 1) : ¬ s.tx.IsFull := by
  intro hfull
  rw [IndexRing.IsFull, hidle] at hfull
  have hlt : s.tx.writeIndex < s.tx.size := hfull ▸ Nat.mod_lt _ hpos
  rcases Nat.lt_or_ge (s.tx.writeIndex + 1) s.tx.size with hroom | hlast
  · rw [Nat.mod_eq_of_lt hroom] at hfull
    omega
  · have heq : s.tx.writeIndex + 1 = s.tx.size := by omega
    rw [heq, Nat.mod_self] at hfull
    omega

theorem sendAll_idle (h : s.tx.IsEmpty) (n : ℕ) : sendAll n s = some s := by
  cases n with
  | zero => rw [sendAll, if_pos h]
  | succ n => rw [sendAll, if_pos h]

theorem HardwareSerial.write_idle (hidle : s.tx.IsEmpty) (hpos : 0 < s.tx.size) (hone : s.tx.size ≠ 1) (c : UInt8) :
    s.write c = some (1, { s with
      tx := ⟨Function.update s.tx.cells s.tx.writeIndex c, s.tx.size, (s.tx.writeIndex + 1) % s.tx.size,
        (s.tx.writeIndex + 1) % s.tx.size⟩,
      sent := s.sent ++ [c],
      accesses := s.accesses ++ [⟨s.tx.writeIndex, s.txAllocated⟩, ⟨s.tx.writeIndex, s.txAllocated⟩] }) := by
  have hfull := not_full_of_idle hidle hpos hone
  have hread : s.tx.readIndex = s.tx.writeIndex := hidle
  have hput : ¬ (s.tx.put c).IsEmpty := fun h => hfull h.symm
  rw [write, awaitSpace, if_neg hfull, Option.bind_some]
  simp only [touchTx]
  rw [if_neg hput, primeTransmit, sendAll, if_neg hput]
  rw [sendAll_idle (by simp only [sendNext, touchTx, IndexRing.IsEmpty, IndexRing.skip, IndexRing.put, hread])]
  simp [sendNext, touchTx, IndexRing.skip, IndexRing.put, hread]

end Inside

namespace HardwareSerial.Settled

variable {s : HardwareSerial} (h : s.Settled)

include h

theorem begin (txOk rxOk : Bool) (fresh : ℕ → UInt8) : ∃ s', s.begin txOk rxOk fresh = some s' ∧ s'.Settled := by
  refine ⟨_, by rw [HardwareSerial.begin, flushAll, if_pos h.idle, Option.map_some], ?_⟩
  refine ⟨rfl, h.txSize, h.rxSize, ?_, ?_, ?_, h.inside⟩
  · cases txOk with
    | false => exact Or.inl rfl
    | true => exact Or.inr h.txSize
  all_goals
    cases rxOk with
    | false => exact Or.inl rfl
    | true => exact Or.inr h.rxSize

theorem endSerial : ∃ s', s.endSerial = some s' ∧ s'.Settled := by
  refine ⟨_, by rw [HardwareSerial.endSerial, flushAll, if_pos h.idle], ?_⟩
  refine ⟨rfl, h.txSize, h.rxSize, ?_, ?_, ?_, h.inside⟩
  · exact h.tx.imp_right fun hlt => Nat.zero_lt_of_lt hlt
  · exact h.rxRead.imp_right fun hlt => Nat.zero_lt_of_lt hlt
  · exact h.rxRead.imp_right fun hlt => Nat.zero_lt_of_lt hlt

theorem setBufferSize (txsize rxsize : ℕ) : (s.setBufferSize txsize rxsize).Settled := by
  unfold HardwareSerial.setBufferSize
  split <;> split
  · exact ⟨h.idle, ‹_›, ‹_›, h.tx, h.rxRead, h.rxWrite, h.inside⟩
  · exact ⟨h.idle, ‹_›, h.rxSize, h.tx, h.rxRead, h.rxWrite, h.inside⟩
  · exact ⟨h.idle, h.txSize, ‹_›, h.tx, h.rxRead, h.rxWrite, h.inside⟩
  · exact ⟨h.idle, h.txSize, h.rxSize, h.tx, h.rxRead, h.rxWrite, h.inside⟩

theorem write (hfit : s.tx.size ≤ s.txAllocated) (hone : s.tx.size ≠ 1) (c : UInt8) :
    ∃ s', s.write c = some (1, s') ∧ s'.Settled := by
  have hpos := h.txSize
  have hlt : s.tx.writeIndex < s.txAllocated := h.tx.resolve_left (by omega)
  refine ⟨_, write_idle h.idle hpos hone c, rfl, hpos, h.rxSize, ?_, h.rxRead, h.rxWrite, ?_⟩
  · exact Or.inr (lt_of_lt_of_le (Nat.mod_lt _ hpos) hfit)
  · exact inside_append h.inside (by simpa using hlt)

theorem read (hfit : s.rx.size ≤ s.rxAllocated) : s.read.2.Settled := by
  have hpos := h.rxSize
  have hlt : s.rx.readIndex < s.rxAllocated := h.rxRead.resolve_left (by omega)
  unfold HardwareSerial.read
  split
  · exact h
  · refine ⟨h.idle, h.txSize, hpos, h.tx, ?_, h.rxWrite, ?_⟩
    · exact Or.inr (lt_of_lt_of_le (Nat.mod_lt _ hpos) hfit)
    · exact inside_append h.inside (by simpa using hlt)

theorem peek (hfit : s.rx.size ≤ s.rxAllocated) : s.peek.2.Settled := by
  have hpos := h.rxSize
  have hlt : s.rx.readIndex < s.rxAllocated := h.rxRead.resolve_left (by omega)
  unfold HardwareSerial.peek
  split
  · exact h
  · exact ⟨h.idle, h.txSize, hpos, h.tx, h.rxRead, h.rxWrite, inside_append h.inside (by simpa using hlt)⟩

theorem receiveLoop (hfit : s.rx.size ≤ s.rxAllocated) (fifo : List UInt32) : (receiveLoop fifo s).2.Settled := by
  induction fifo generalizing s with
  | nil => exact h
  | cons lChar fifo ih =>
    have hpos := h.rxSize
    have hlt : s.rx.writeIndex < s.rxAllocated := h.rxWrite.resolve_left (by omega)
    rw [HardwareSerial.receiveLoop, receiveChar]
    by_cases hfull : s.rx.IsFull
    · rw [if_pos hfull]
      exact h
    · rw [if_neg hfull]
      have hnext : HardwareSerial.Settled { s.touchRx s.rx.writeIndex with rx := s.rx.put (dataByte lChar) } := by
        refine ⟨h.idle, h.txSize, hpos, h.tx, h.rxRead, ?_, ?_⟩
        · exact Or.inr (lt_of_lt_of_le (Nat.mod_lt _ hpos) hfit)
        · exact inside_append h.inside (by simpa using hlt)
      exact ih hnext hfit

theorem uartIntHandler (hfit : s.rx.size ≤ s.rxAllocated) (txInt rxInt : Bool) (fifo : List UInt32) :
    ∃ fifo' s', s.uartIntHandler txInt rxInt fifo = some (fifo', s') ∧ s'.Settled := by
  have hprime : (if txInt then s.primeTransmit else some s) = some s := by
    rw [primeTransmit_idle h.idle, ite_self]
  rw [HardwareSerial.uartIntHandler, hprime, Option.bind_some]
  cases rxInt with
  | false => exact ⟨fifo, s, rfl, h⟩
  | true =>
    have hloop := h.receiveLoop hfit fifo
    rw [if_pos rfl, primeTransmit_idle hloop.idle]
    exact ⟨_, _, rfl, hloop⟩

end HardwareSerial.Settled

structure PortRun.Steady (p : PortRun) : Prop where
  settled : p.serial.Settled
  returned : p.hung = false

theorem PortRun.Steady.step {p : PortRun} (h : p.Steady) {e : PortEvent} (hfit : Fitting p e) :
    (p.step e).Steady := by
  have hsome {r : Option HardwareSerial} (hr : ∃ s, r = some s ∧ s.Settled) : (p.ofResult r).Steady := by
    obtain ⟨s, rfl, hs⟩ := hr
    exact ⟨hs, h.returned⟩
  cases e with
  | setBufferSize txsize rxsize => exact ⟨h.settled.setBufferSize txsize rxsize, h.returned⟩
  | begin txOk rxOk fresh => exact hsome (h.settled.begin txOk rxOk fresh)
  | setModule txOk rxOk fresh => exact hsome (h.settled.begin txOk rxOk fresh)
  | write c =>
    obtain ⟨s, hs, hsettled⟩ := h.settled.write hfit.1 hfit.2 c
    exact hsome ⟨s, by rw [hs, Option.map_some], hsettled⟩
  | read => exact ⟨h.settled.read hfit, h.returned⟩
  | peek => exact ⟨h.settled.peek hfit, h.returned⟩
  | available => exact h
  | endSerial => exact hsome h.settled.endSerial
  | uartInt txInt rxInt fifo =>
    obtain ⟨fifo', s, hs, hsettled⟩ := h.settled.uartIntHandler hfit txInt rxInt fifo
    exact hsome ⟨s, by rw [hs, Option.map_some], hsettled⟩

theorem construct_settled : construct.Settled :=
  ⟨rfl, by decide, by decide, Or.inl rfl, Or.inl rfl, Or.inl rfl, fun _ h => nomatch h⟩

/-- From the first begin() on, a run in which buffers are used only while they fit their blocks stays inside them, and
all its calls return. -/
theorem serial_indices_inside (txOk rxOk : Bool) (fresh : ℕ → UInt8) (s : HardwareSerial)
    (hbegin : construct.begin txOk rxOk fresh = some s) (es : List PortEvent)
    (hfit : (Machine.mk Fitting portMachine.step).Legal ⟨s, false⟩ es) (fs gs : List PortEvent) (hes : es = fs ++ gs) :
    (portMachine.run ⟨s, false⟩ fs).Safe := by
  obtain ⟨s', hs', hsettled⟩ := construct_settled.begin txOk rxOk fresh
  obtain rfl : s' = s := Option.some.inj (hs'.symm.trans hbegin)
  rw [hes, Machine.legal_append] at hfit
  have hsteady : (portMachine.run ⟨s', false⟩ fs).Steady :=
    Machine.invariant (M := Machine.mk Fitting portMachine.step) (fun p e he h => h.step he) ⟨hsettled, rfl⟩ hfit.1
  exact ⟨hsteady.settled.inside, hsteady.returned⟩

theorem serial_indices_inside_resized :
    ∃ s, construct.begin true true (fun _ => 0) = some s ∧
      (portMachine.run ⟨s, false⟩ [.setBufferSize 2 4, .write 65, .begin true true fun _ => 0, .write 66, .write 67,
        .uartInt true true [68, 69, 70, 71], .read, .endSerial]).Safe := by
  refine ⟨_, rfl, serial_indices_inside true true (fun _ => 0) _ rfl _ ?_ _ [] (List.append_nil _).symm⟩
  exact ⟨trivial, ⟨by decide, by decide⟩, trivial, ⟨by decide, by decide⟩, ⟨by decide, by decide⟩,
    (by decide : (4 : ℕ) ≤ 4), (by decide : (4 : ℕ) ≤ 4), trivial, trivial⟩

/-- A size raised after begin() leads both indices past the blocks, and a transmit buffer of size 1 is always full. -/
theorem serial_resized_overruns :
    ∃ s, construct.begin true true (fun _ => 0) = some s ∧
      ⟨2, 2⟩ ∈ (portMachine.run ⟨s, false⟩ [.setBufferSize 2 2, .begin true true fun _ => 0, .setBufferSize 4 4,
        .write 65, .write 66, .write 67]).serial.accesses ∧
      ⟨2, 2⟩ ∈ (portMachine.run ⟨s, false⟩ [.setBufferSize 2 2, .begin true true fun _ => 0, .setBufferSize 4 4,
        .uartInt false true [65, 66, 67]]).serial.accesses ∧
      (portMachine.run ⟨s, false⟩ [.setBufferSize 1 0, .begin true true fun _ => 0, .write 65]).hung = true := by
  refine ⟨_, rfl, ?_, ?_, ?_⟩
  · decide
  · decide
  · decide

end LogoCore.Serial
