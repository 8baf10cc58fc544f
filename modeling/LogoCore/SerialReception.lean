import LogoCore.EventMachine
import LogoCore.HardwareSerial

namespace LogoCore.Serial

open HardwareSerial

inductive RxEvent
  | uartInt (txInt rxInt : Bool) (arrived : List UInt32)
  | read
  | peek
  | available

/-- A serial port, its receive FIFO, and the history of reception: the characters taken from the FIFO, each with the
number of stored characters that were unread then, those stored, and those that read() returned. -/
structure Reception where
  serial : HardwareSerial
  fifo : List UInt32
  taken : List (UInt8 × ℕ)
  stored : List UInt8
  returned : List UInt8

namespace Reception

def takeChars : List UInt32 → Reception → Reception
  | [], r => { r with fifo := [] }
  | lChar :: fifo, r =>
    let taken := r.taken ++ [(dataByte lChar, r.stored.length - r.returned.length)]
    match r.serial.receiveChar lChar with
    | none => { r with fifo := fifo, taken := taken }
    | some s => takeChars fifo { r with serial := s, taken := taken, stored := r.stored ++ [dataByte lChar] }

def step (r : Reception) : RxEvent → Reception
  | .uartInt txInt rxInt arrived =>
    match r.serial.uartIntHandler txInt rxInt (r.fifo ++ arrived) with
    | none => r
    | some (fifo, s) => { if rxInt then takeChars (r.fifo ++ arrived) r else r with serial := s, fifo := fifo }
  | .read => { r with serial := r.serial.read.2, returned := r.returned ++ r.serial.read.1.toList }
  | .peek => { r with serial := r.serial.peek.2 }
  | .available => r

def kept (n : ℕ) (taken : List (UInt8 × ℕ)) : List UInt8 := (taken.filter fun t => t.2 ≠ n - 1).map Prod.fst

def unread (r : Reception) : List UInt8 := r.stored.drop r.returned.length

structure LosesOnlyOnFull (n : ℕ) (r : Reception) : Prop where
  available : r.serial.available = Int32.ofNat r.unread.length
  available_int : n ≤ 2 ^ 31 → r.serial.available.toInt = r.unread.length
  bounded : r.unread.length ≤ n - 1
  peek : r.serial.peek.1 = r.unread.head?
  read : r.serial.read.1 = r.unread.head?
  returned : r.returned ++ r.unread = r.stored
  in_order : r.returned.Sublist (r.taken.map Prod.fst)
  lost : r.stored = kept n r.taken

end Reception

def receptionMachine : Machine Reception RxEvent := ⟨fun _ _ => True, Reception.step⟩

structure Reception.Tracks (n : ℕ) (r : Reception) : Prop where
  size : r.serial.rx.size = n
  valid : r.serial.rx.Valid
  idle : r.serial.tx.IsEmpty
  stored : r.returned ++ r.serial.rx.contents = r.stored
  lost : r.stored = kept n r.taken

theorem HardwareSerial.primeTransmit_idle {s : HardwareSerial} (h : s.tx.IsEmpty) : s.primeTransmit = some s := by
  rw [primeTransmit, sendAll, if_pos h]

theorem HardwareSerial.receiveChar_cases (s : HardwareSerial) (lChar : UInt32) :
    s.rx.IsFull ∧ s.receiveChar lChar = none ∨
    ¬ s.rx.IsFull ∧ ∃ s', s.receiveChar lChar = some s' ∧ s'.rx = s.rx.put (dataByte lChar) ∧ s'.tx = s.tx := by
  unfold receiveChar
  by_cases h : s.rx.IsFull
  · exact Or.inl ⟨h, if_pos h⟩
  · exact Or.inr ⟨h, _, if_neg h, rfl, rfl⟩

namespace Reception

theorem kept_full {n u : ℕ} (h : u = n - 1) (taken : List (UInt8 × ℕ)) (c : UInt8) :
    kept n (taken ++ [(c, u)]) = kept n taken := by
  simp [kept, List.filter_append, h]

theorem kept_room {n u : ℕ} (h : u ≠ n - 1) (taken : List (UInt8 × ℕ)) (c : UInt8) :
    kept n (taken ++ [(c, u)]) = kept n taken ++ [c] := by
  simp [kept, List.filter_append, h]

theorem takeChars_serial (fifo : List UInt32) (r : Reception) :
    (takeChars fifo r).serial = (receiveLoop fifo r.serial).2 ∧
      (takeChars fifo r).fifo = (receiveLoop fifo r.serial).1 := by
  induction fifo generalizing r with
  | nil => exact ⟨rfl, rfl⟩
  | cons lChar fifo ih =>
    simp only [takeChars, receiveLoop]
    cases r.serial.receiveChar lChar with
    | none => exact ⟨rfl, rfl⟩
    | some s => exact ih _

namespace Tracks

variable {n : ℕ} {r : Reception} (h : r.Tracks n)

include h

theorem fill_eq : r.serial.rx.fill = r.stored.length - r.returned.length := by
  rw [← h.stored, List.length_append, IndexRing.length_contents]
  omega

theorem unread_eq : r.unread = r.serial.rx.contents := by
  rw [unread, ← h.stored, List.drop_left]

theorem takeChars (fifo : List UInt32) : (takeChars fifo r).Tracks n := by
  induction fifo generalizing r with
  | nil => exact ⟨h.size, h.valid, h.idle, h.stored, h.lost⟩
  | cons lChar fifo ih =>
    have hfill := h.fill_eq
    have hfull := h.valid.isFull_iff
    rw [h.size, hfill] at hfull
    simp only [Reception.takeChars]
    obtain ⟨hyes, heq⟩ | ⟨hno, s, heq, hrx, htx⟩ := receiveChar_cases r.serial lChar
    · rw [heq]
      refine ⟨h.size, h.valid, h.idle, h.stored, ?_⟩
      have hlast : r.stored.length - r.returned.length = n - 1 := by
        have := hfull.mp hyes
        omega
      rw [kept_full hlast]
      exact h.lost
    · rw [heq]
      apply ih
      obtain ⟨hvalid, hcontents⟩ := h.valid.put hno (dataByte lChar)
      have hlast : r.stored.length - r.returned.length ≠ n - 1 := by
        have hpos := h.valid.read
        rw [h.size] at hpos
        intro heq
        exact hno (hfull.mpr (by omega))
      refine ⟨?_, ?_, ?_, ?_, ?_⟩
      · rw [hrx]
        exact h.size
      · rw [hrx]
        exact hvalid
      · rw [htx]
        exact h.idle
      · rw [hrx, hcontents, ← List.append_assoc, h.stored]
      · rw [kept_room hlast, h.lost]

theorem step (e : RxEvent) : (r.step e).Tracks n := by
  cases e with
  | uartInt txInt rxInt arrived =>
    have hprime : (if txInt then r.serial.primeTransmit else some r.serial) = some r.serial := by
      rw [primeTransmit_idle h.idle, ite_self]
    simp only [Reception.step, uartIntHandler, hprime, Option.bind_some]
    cases rxInt with
    | false => exact ⟨h.size, h.valid, h.idle, h.stored, h.lost⟩
    | true =>
      have htracks := h.takeChars (r.fifo ++ arrived)
      have hserial := (takeChars_serial (r.fifo ++ arrived) r).1
      have hidle := htracks.idle
      rw [hserial] at hidle
      simp only [if_true, primeTransmit_idle hidle, Option.map_some]
      rw [← hserial]
      exact ⟨htracks.size, htracks.valid, htracks.idle, htracks.stored, htracks.lost⟩
  | read =>
    simp only [Reception.step, HardwareSerial.read]
    by_cases hempty : r.serial.rx.IsEmpty
    · rw [if_pos hempty]
      exact ⟨h.size, h.valid, h.idle, by rw [Option.toList_none, List.append_nil]; exact h.stored, h.lost⟩
    · rw [if_neg hempty]
      obtain ⟨hvalid, hcontents⟩ := h.valid.skip hempty
      refine ⟨h.size, hvalid, h.idle, ?_, h.lost⟩
      rw [Option.toList_some, List.append_assoc, List.singleton_append]
      exact (congrArg (r.returned ++ ·) hcontents.symm).trans h.stored
  | peek =>
    simp only [Reception.step, HardwareSerial.peek]
    split
    · exact ⟨h.size, h.valid, h.idle, h.stored, h.lost⟩
    · exact ⟨h.size, h.valid, h.idle, h.stored, h.lost⟩
  | available => exact h

theorem losesOnlyOnFull (hn : n < 2 ^ 32) : r.LosesOnlyOnFull n := by
  have hunread := h.unread_eq
  have hlength : r.unread.length = r.serial.rx.fill := by rw [hunread, IndexRing.length_contents]
  have hlt : r.serial.rx.fill < n := h.size ▸ h.valid.fill_lt
  have havailable : r.serial.available = Int32.ofNat r.unread.length := by
    rw [hlength, HardwareSerial.available, IndexRing.fill]
    split
    · rfl
    · rw [Int32.sub_eq_iff_eq_add, ← Int32.ofNat_add]
      have hread := h.valid.read
      congr 1
      omega
  have hhead (hne : ¬ r.serial.rx.IsEmpty) : r.unread.head? = some (r.serial.rx.cells r.serial.rx.readIndex) := by
    rw [hunread, (h.valid.skip hne).2, List.head?_cons]
  have hnone (he : r.serial.rx.IsEmpty) : r.unread.head? = none := by
    rw [List.head?_eq_none_iff, ← List.length_eq_zero_iff, hlength]
    exact h.valid.isEmpty_iff.mp he
  refine ⟨havailable, ?_, ?_, ?_, ?_, ?_, ?_, h.lost⟩
  · intro hsmall
    rw [havailable, Int32.toInt_ofNat_of_lt (by omega)]
  · omega
  · unfold HardwareSerial.peek
    split
    · exact (hnone ‹_›).symm
    · exact (hhead ‹_›).symm
  · unfold HardwareSerial.read
    split
    · exact (hnone ‹_›).symm
    · exact (hhead ‹_›).symm
  · rw [hunread, h.stored]
  · have hsub : r.stored.Sublist (r.taken.map Prod.fst) := by
      rw [h.lost, kept]
      exact List.filter_sublist.map Prod.fst
    apply List.Sublist.trans _ hsub
    rw [← h.stored]
    exact List.sublist_append_left _ _

end Tracks

theorem begin_tracks {s₀ s : HardwareSerial} {txOk rxOk : Bool} {fresh : ℕ → UInt8} (hpos : 0 < s₀.rx.size)
    (h : s₀.begin txOk rxOk fresh = some s) (fifo : List UInt32) :
    (Reception.mk s fifo [] [] []).Tracks s₀.rx.size := by
  obtain ⟨s', hflush, rfl⟩ := Option.map_eq_some_iff.mp h
  unfold flushAll at hflush
  split at hflush
  · obtain rfl := Option.some.inj hflush
    exact ⟨rfl, ⟨hpos, hpos⟩, rfl, rfl, rfl⟩
  · cases hflush

end Reception

/-- After any begin(), and along any interleaving of interrupts and calls, reception loses characters only when the
ring is full, and keeps the order of the others. -/
theorem reception_loses_only_on_full (s₀ s : HardwareSerial) (txOk : Bool) (fresh : ℕ → UInt8) (hpos : 0 < s₀.rx.size)
    (hword : s₀.rx.size < 2 ^ 32) (hbegin : s₀.begin txOk true fresh = some s) (fifo : List UInt32)
    (es : List RxEvent) :
    (receptionMachine.run ⟨s, fifo, [], [], []⟩ es).LosesOnlyOnFull s₀.rx.size := by
  have hlegal : receptionMachine.Legal ⟨s, fifo, [], [], []⟩ es :=
    Machine.legal_iff_splits.mpr fun _ _ _ _ => trivial
  have htracks : (receptionMachine.run ⟨s, fifo, [], [], []⟩ es).Tracks s₀.rx.size :=
    Machine.invariant (fun r e _ h => h.step e) (Reception.begin_tracks hpos hbegin fifo) hlegal
  exact htracks.losesOnlyOnFull hword

/-- With a buffer of size 3 the third character is lost and the fourth stays in the FIFO for the next interrupt. -/
theorem reception_third_character_lost :
    let s₀ := HardwareSerial.construct.setBufferSize 3 3
    let es := [RxEvent.uartInt false true [65, 66, 67, 68], .read, .uartInt false true [], .peek]
    ∃ s, s₀.begin true true (fun _ => 0) = some s ∧
      (receptionMachine.run ⟨s, [], [], [], []⟩ es).stored = [65, 66, 68] ∧
      (receptionMachine.run ⟨s, [], [], [], []⟩ es).LosesOnlyOnFull 3 := by
  intro s₀ es
  obtain ⟨s, hs⟩ : ∃ s, s₀.begin true true (fun _ => 0) = some s := ⟨_, rfl⟩
  refine ⟨s, hs, ?_, reception_loses_only_on_full s₀ s true _ (by decide) (by decide) hs [] es⟩
  obtain rfl := Option.some.inj hs
  decide

end LogoCore.Serial
