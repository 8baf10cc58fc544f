import LogoCore.SerialReception
import Mathlib.Logic.Relation

namespace LogoCore.Serial

open HardwareSerial

/-- Any number of runs of UARTIntHandler(), with whatever the UART has received. -/
def Interrupted : HardwareSerial → HardwareSerial → Prop :=
  Relation.ReflTransGen fun s s' => ∃ txInt rxInt fifo rest, s.uartIntHandler txInt rxInt fifo = some (rest, s')

/-- available() with each read of an index made in a state of its own: the write index and the read index of the test,
and the two of the branch in the order in which they stand there. -/
def HardwareSerial.availableAt (s₁ s₂ s₃ s₄ : HardwareSerial) : Int32 :=
  if s₂.rx.readIndex ≤ s₁.rx.writeIndex then Int32.ofNat s₃.rx.writeIndex - Int32.ofNat s₄.rx.readIndex
  else Int32.ofNat s₄.rx.size - (Int32.ofNat s₃.rx.readIndex - Int32.ofNat s₄.rx.writeIndex)

/-- A call of available() from `s` to `s'` that interrupts may preempt at every read. -/
structure Preempted (s s₁ s₂ s₃ s₄ s' : HardwareSerial) : Prop where
  entry : Interrupted s s₁
  test : Interrupted s₁ s₂
  branch : Interrupted s₂ s₃
  value : Interrupted s₃ s₄
  exit : Interrupted s₄ s'

theorem availableAt_self (s : HardwareSerial) : s.availableAt s s s = s.available := by
  rw [availableAt, available]
  split
  · rename_i hle
    rw [Int32.ofNat_sub _ _ hle]
  · rw [Int32.ofNat_sub _ _ (by omega)]

structure Received (r r' : IndexRing UInt8) : Prop where
  valid : r'.Valid
  size : r'.size = r.size
  read : r'.readIndex = r.readIndex
  fill : r.fill ≤ r'.fill

section Reception

variable {r r' r'' : IndexRing UInt8}

theorem Received.refl (h : r.Valid) : Received r r := ⟨h, rfl, rfl, le_rfl⟩

theorem Received.trans (h : Received r r') (h' : Received r' r'') : Received r r'' :=
  ⟨h'.valid, h'.size.trans h.size, h'.read.trans h.read, h.fill.trans h'.fill⟩

theorem received_put (h : r.Valid) (hfull : ¬ r.IsFull) (b : UInt8) : Received r (r.put b) := by
  obtain ⟨hvalid, hcontents⟩ := h.put hfull b
  refine ⟨hvalid, rfl, rfl, ?_⟩
  rw [← IndexRing.length_contents, ← IndexRing.length_contents, hcontents, List.length_append]
  exact Nat.le_add_right _ _

theorem fill_of_le (h : r.readIndex ≤ r.writeIndex) : r.fill = r.writeIndex - r.readIndex := if_pos h

theorem fill_of_lt (h : r.writeIndex < r.readIndex) : r.fill = r.size - (r.readIndex - r.writeIndex) :=
  if_neg (Nat.not_le.mpr h)

theorem Received.stays_behind (h : Received r r') (hvalid : r.Valid) (hbehind : r.writeIndex < r.readIndex) :
    r'.writeIndex < r'.readIndex := by
  by_contra hahead
  have hfill := fill_of_lt hbehind
  have hfill' := fill_of_le (Nat.le_of_not_lt hahead)
  have hread := hvalid.read
  have hwrite := h.valid.write
  have hgrows := h.fill
  rw [h.size] at hwrite
  rw [h.read] at hfill'
  omega

theorem sendAll_rx {n : ℕ} {s s' : HardwareSerial} (h : sendAll n s = some s') : s'.rx = s.rx := by
  induction n generalizing s with
  | zero =>
    rw [sendAll] at h
    split at h
    · cases h
      rfl
    · cases h
  | succ n ih =>
    rw [sendAll] at h
    split at h
    · cases h
      rfl
    · exact (ih h).trans rfl

theorem received_receiveLoop {s : HardwareSerial} (h : s.rx.Valid) (fifo : List UInt32) :
    Received s.rx (receiveLoop fifo s).2.rx := by
  induction fifo generalizing s with
  | nil => exact .refl h
  | cons lChar fifo ih =>
    rw [receiveLoop]
    obtain ⟨-, heq⟩ | ⟨hroom, s', heq, hrx, -⟩ := receiveChar_cases s lChar
    · rw [heq]
      exact .refl h
    · rw [heq]
      have hput := received_put h hroom (dataByte lChar)
      rw [← hrx] at hput
      exact hput.trans (ih hput.valid)

theorem received_uartIntHandler {s s' : HardwareSerial} {txInt rxInt : Bool} {fifo rest : List UInt32}
    (h : s.rx.Valid) (hrun : s.uartIntHandler txInt rxInt fifo = some (rest, s')) : Received s.rx s'.rx := by
  obtain ⟨s₁, hsend, hreceive⟩ := Option.bind_eq_some_iff.mp hrun
  have hrx : s₁.rx = s.rx := by
    cases txInt with
    | false =>
      cases hsend
      rfl
    | true => exact sendAll_rx hsend
  rw [← hrx] at h ⊢
  cases rxInt with
  | false =>
    cases hreceive
    exact .refl h
  | true =>
    obtain ⟨s₂, hprime, hpair⟩ := Option.map_eq_some_iff.mp hreceive
    cases hpair
    rw [sendAll_rx hprime]
    exact received_receiveLoop h fifo

theorem Interrupted.received {s s' : HardwareSerial} (hrun : Interrupted s s') (h : s.rx.Valid) :
    Received s.rx s'.rx := by
  induction hrun with
  | refl => exact .refl h
  | tail _ hstep ih =>
    obtain ⟨txInt, rxInt, fifo, rest, hhandler⟩ := hstep
    exact ih.trans (received_uartIntHandler ih.valid hhandler)

theorem Preempted.received {s s₁ s₂ s₃ s₄ s' : HardwareSerial} (h : Preempted s s₁ s₂ s₃ s₄ s') (hvalid : s.rx.Valid) :
    Received s.rx s₁.rx ∧ Received s₁.rx s₂.rx ∧ Received s₂.rx s₃.rx ∧ Received s₃.rx s₄.rx ∧
      Received s₄.rx s'.rx := by
  have h₁ := h.entry.received hvalid
  have h₂ := h.test.received h₁.valid
  have h₃ := h.branch.received h₂.valid
  have h₄ := h.value.received h₃.valid
  exact ⟨h₁, h₂, h₃, h₄, h.exit.received h₄.valid⟩

end Reception

def CountsBetween (s s₁ s₂ s₃ s₄ s' : HardwareSerial) : Prop :=
  (s.rx.contents.length : ℤ) ≤ (s₁.availableAt s₂ s₃ s₄).toInt ∧
    (s₁.availableAt s₂ s₃ s₄).toInt ≤ s'.rx.contents.length

/-- The write index is not behind the read index at the first read of it, and is at the second. -/
def WrapsBetween (s₁ s₃ : HardwareSerial) : Prop :=
  s₁.rx.readIndex ≤ s₁.rx.writeIndex ∧ s₃.rx.writeIndex < s₃.rx.readIndex

theorem toInt_sub_ofNat (a b : ℕ) : (Int32.ofNat a - Int32.ofNat b).toInt = ((a : ℤ) - b).bmod (2 ^ 32) := by
  rw [← Int32.ofInt_eq_ofNat, ← Int32.ofInt_eq_ofNat, ← Int32.ofInt_sub, Int32.toInt_ofInt]
  rfl

theorem toInt_sub_sub_ofNat (a b c : ℕ) :
    (Int32.ofNat a - (Int32.ofNat b - Int32.ofNat c)).toInt = ((a : ℤ) - (b - c)).bmod (2 ^ 32) := by
  rw [← Int32.ofInt_eq_ofNat, ← Int32.ofInt_eq_ofNat, ← Int32.ofInt_eq_ofNat, ← Int32.ofInt_sub, ← Int32.ofInt_sub,
    Int32.toInt_ofInt]
  rfl

theorem bmod_eq (x : ℤ) :
    x.bmod (2 ^ 32) = if x % 2 ^ 32 < 2 ^ 31 then x % 2 ^ 32 else x % 2 ^ 32 - 2 ^ 32 := rfl

section Counting

variable {s s₁ s₂ s₃ s₄ s' : HardwareSerial} (h : Preempted s s₁ s₂ s₃ s₄ s') (hvalid : s.rx.Valid)
  (hsize : s.rx.size < 2 ^ 32)

include h hvalid hsize

theorem countsBetween_cases :
    CountsBetween s s₁ s₂ s₃ s₄ s' ↔
      if s₁.rx.readIndex ≤ s₁.rx.writeIndex then
        if s₃.rx.readIndex ≤ s₃.rx.writeIndex then s₃.rx.fill < 2 ^ 31
        else 2 ^ 31 < s₃.rx.readIndex - s₃.rx.writeIndex ∧ s₃.rx.fill + (2 ^ 32 - s.rx.size) ≤ s'.rx.fill
      else s₄.rx.fill < 2 ^ 31 := by
  obtain ⟨h₁, h₂, h₃, h₄, h₅⟩ := h.received hvalid
  have hto₃ : Received s.rx s₃.rx := h₁.trans (h₂.trans h₃)
  have hto₄ : Received s.rx s₄.rx := hto₃.trans h₄
  have hlow := hto₃.fill
  have hmid := h₄.fill
  have hhigh := h₅.fill
  have hbound := h₅.valid.fill_lt
  rw [(hto₄.trans h₅).size] at hbound
  rw [CountsBetween, IndexRing.length_contents, IndexRing.length_contents, availableAt, h₂.read]
  by_cases hahead₁ : s₁.rx.readIndex ≤ s₁.rx.writeIndex
  · rw [if_pos hahead₁, if_pos hahead₁, toInt_sub_ofNat, h₄.read, bmod_eq]
    by_cases hahead₃ : s₃.rx.readIndex ≤ s₃.rx.writeIndex
    · have hfill := fill_of_le hahead₃
      rw [if_pos hahead₃]
      split <;> omega
    · have hfill := fill_of_lt (Nat.lt_of_not_le hahead₃)
      have hread := hto₃.valid.read
      rw [hto₃.size] at hfill hread
      rw [if_neg hahead₃]
      split <;> omega
  · have hbehind₄ := (h₂.trans (h₃.trans h₄)).stays_behind h₁.valid (Nat.lt_of_not_le hahead₁)
    have hfill := fill_of_lt hbehind₄
    have hread := hto₄.valid.read
    rw [hto₄.size] at hfill hread
    rw [if_neg hahead₁, if_neg hahead₁, toInt_sub_sub_ofNat, ← h₄.read, hto₄.size, bmod_eq]
    split <;> omega

theorem countsBetween_of_small (hsmall : s.rx.size ≤ 2 ^ 31) :
    CountsBetween s s₁ s₂ s₃ s₄ s' ↔ ¬ WrapsBetween s₁ s₃ := by
  obtain ⟨h₁, h₂, h₃, h₄, -⟩ := h.received hvalid
  have hto₃ : Received s.rx s₃.rx := h₁.trans (h₂.trans h₃)
  have hto₄ : Received s.rx s₄.rx := hto₃.trans h₄
  have hfill₃ := hto₃.valid.fill_lt
  have hfill₄ := hto₄.valid.fill_lt
  have hread := hto₃.valid.read
  rw [hto₃.size] at hfill₃ hread
  rw [hto₄.size] at hfill₄
  rw [countsBetween_cases h hvalid hsize, WrapsBetween]
  split
  · split <;> omega
  · omega

end Counting

theorem countsBetween_iff (s s₁ s₂ s₃ s₄ s' : HardwareSerial) (h : Preempted s s₁ s₂ s₃ s₄ s') (hvalid : s.rx.Valid)
    (hsize : s.rx.size < 2 ^ 32) :
    (CountsBetween s s₁ s₂ s₃ s₄ s' ↔
      if s₁.rx.readIndex ≤ s₁.rx.writeIndex then
        if s₃.rx.readIndex ≤ s₃.rx.writeIndex then s₃.rx.fill < 2 ^ 31
        else 2 ^ 31 < s₃.rx.readIndex - s₃.rx.writeIndex ∧ s₃.rx.fill + (2 ^ 32 - s.rx.size) ≤ s'.rx.fill
      else s₄.rx.fill < 2 ^ 31) ∧
    (s.rx.size ≤ 2 ^ 31 → (CountsBetween s s₁ s₂ s₃ s₄ s' ↔ ¬ WrapsBetween s₁ s₃)) :=
  ⟨countsBetween_cases h hvalid hsize, countsBetween_of_small h hvalid hsize⟩

def lastCellPort : HardwareSerial := ⟨⟨fun _ => 0, 16, 0, 0⟩, ⟨fun _ => 0, 16, 5, 15⟩, 16, 16, [], []⟩

/-- A character arrives between the two reads of the branch. -/
theorem lastCellPort_counts :
    ∃ s, Preempted lastCellPort lastCellPort lastCellPort lastCellPort s s ∧
      s.rx.contents.length = lastCellPort.rx.contents.length + 1 ∧
      CountsBetween lastCellPort lastCellPort lastCellPort lastCellPort s s := by
  have hrun : Preempted lastCellPort lastCellPort lastCellPort lastCellPort (receiveLoop [65] lastCellPort).2
      (receiveLoop [65] lastCellPort).2 :=
    ⟨.refl, .refl, .refl, .single ⟨false, true, [65], [], rfl⟩, .refl⟩
  refine ⟨_, hrun, by decide, ?_⟩
  exact ((countsBetween_iff _ _ _ _ _ _ hrun ⟨by decide, by decide⟩ (by decide)).2 (by decide)).mpr
    fun hwraps => absurd hwraps.2 (by decide)

theorem preempted_available_negative :
    ∃ s, Preempted lastCellPort lastCellPort lastCellPort s s s ∧
      lastCellPort.availableAt lastCellPort s s = -5 ∧
      ¬ CountsBetween lastCellPort lastCellPort lastCellPort s s s := by
  refine ⟨(receiveLoop [65] lastCellPort).2, ⟨.refl, .refl, .single ?_, .refl, .refl⟩, by decide, ?_⟩
  · exact ⟨false, true, [65], [], rfl⟩
  · rintro ⟨hlow, -⟩
    have hvalue : (lastCellPort.availableAt lastCellPort (receiveLoop [65] lastCellPort).2
        (receiveLoop [65] lastCellPort).2).toInt = -5 := by decide
    omega

end LogoCore.Serial
