import LogoCore.EventMachine
import LogoCore.TwoWire

namespace LogoCore.Wire

/-- What I2CMasterErr and I2CMasterDataGet give for one byte of a request. -/
structure BusByte (α : Type) where
  error : UInt8
  data : α

namespace TwoWire

variable {α : Type}

def available (w : TwoWire α) : ℤ :=
  if w.rx.readIndex ≤ w.rx.writeIndex then (w.rx.writeIndex : ℤ) - w.rx.readIndex
  else bufferLength - ((w.rx.readIndex : ℤ) - w.rx.writeIndex)

-- none is the -1 of the source, which tests for a full buffer here
def read (w : TwoWire α) : Option α × TwoWire α :=
  if w.rx.IsFull then (none, w) else (some (w.rx.cells w.rx.readIndex), { w with rx := w.rx.skip })

def peek (w : TwoWire α) : Option α := if w.rx.IsEmpty then none else some (w.rx.cells w.rx.readIndex)

def getRxData (w : TwoWire α) (b : BusByte α) : UInt8 × TwoWire α :=
  if b.error ≠ 0 then (b.error, w) else (b.error, { w with rx := w.rx.put b.data })

/-- I2CIntHandler() when the slave has received a byte. -/
def slaveReceive (w : TwoWire α) (firstByte : Bool) (data : α) : TwoWire α :=
  let w := if firstByte then { w with currentState := .slaveRx } else w
  if w.rx.IsFull then w else { w with rx := w.rx.put data }

end TwoWire

inductive ReceiveCall (α : Type)
  | getRxData (b : BusByte α)
  | slaveReceive (firstByte : Bool) (data : α)
  | read
  | peek
  | available
  | flush

inductive Answer (α : Type)
  | nothing
  | error (e : UInt8)
  | value (v : Option α)
  | count (n : ℤ)

section Calls

variable {α : Type}

def TwoWire.call (w : TwoWire α) : ReceiveCall α → Answer α × TwoWire α
  | .getRxData b => (.error (w.getRxData b).1, (w.getRxData b).2)
  | .slaveReceive firstByte data => (.nothing, w.slaveReceive firstByte data)
  | .read => (.value w.read.1, w.read.2)
  | .peek => (.value w.peek, w)
  | .available => (.count w.available, w)
  | .flush => (.nothing, w.flush)

def queueCall (q : List α) : ReceiveCall α → Answer α × List α
  | .getRxData b => (.error b.error, if b.error ≠ 0 then q else q ++ [b.data])
  | .slaveReceive _ data => (.nothing, if q.length = bufferLength - 1 then q else q ++ [data])
  | .read => (.value q.head?, q.tail)
  | .peek => (.value q.head?, q)
  | .available => (.count q.length, q)
  | .flush => (.nothing, [])

/-- getRxData(), which does not look at the read index, stores a byte only when there is room for it. -/
def HasRoom (q : List α) : ReceiveCall α → Prop
  | .getRxData b => b.error = 0 → q.length < bufferLength - 1
  | _ => True

def receiveStep (s : TwoWire α × List α) (c : ReceiveCall α) : TwoWire α × List α :=
  ((s.1.call c).2, (queueCall s.2 c).2)

/-- The object and the queue side by side. -/
def receiveMachine : Machine (TwoWire α × List α) (ReceiveCall α) := ⟨fun s c => HasRoom s.2 c, receiveStep⟩

def AnswersAsQueue (s : TwoWire α × List α) (c : ReceiveCall α) : Prop := (s.1.call c).1 = (queueCall s.2 c).1

def ReadsInside (s : TwoWire α × List α) (c : ReceiveCall α) : Prop :=
  c = .read → 0 < s.2.length ∧ s.2.length < bufferLength - 1

structure Receiving (w : TwoWire α) : Prop where
  valid : w.rx.Valid
  size : w.rx.size = bufferLength

structure Holds (w : TwoWire α) (q : List α) : Prop extends Receiving w where
  contents : w.rx.contents = q

variable {w : TwoWire α} {q : List α}

namespace Receiving

variable (h : Receiving w)

include h

theorem available_eq : w.available = w.rx.contents.length := by
  have hread := h.valid.read
  have hsize := h.size
  rw [IndexRing.length_contents, TwoWire.available, IndexRing.fill, hsize]
  split <;> omega

theorem isEmpty_iff : w.rx.IsEmpty ↔ w.rx.contents = [] := by
  rw [h.valid.isEmpty_iff, ← IndexRing.length_contents, List.length_eq_zero_iff]

theorem isFull_iff : w.rx.IsFull ↔ w.rx.contents.length = bufferLength - 1 := by
  have hsize : bufferLength = 64 := rfl
  rw [h.valid.isFull_iff, h.size, ← IndexRing.length_contents]
  omega

theorem peek_eq : w.peek = w.rx.contents.head? := by
  rw [TwoWire.peek]
  by_cases hempty : w.rx.IsEmpty
  · rw [if_pos hempty, h.isEmpty_iff.mp hempty, List.head?_nil]
  · rw [if_neg hempty, (h.valid.skip hempty).2, List.head?_cons]

theorem put (hroom : w.rx.contents.length < bufferLength - 1) (b : α) :
    Holds { w with rx := w.rx.put b } (w.rx.contents ++ [b]) := by
  have hfull : ¬ w.rx.IsFull := by
    rw [h.isFull_iff]
    omega
  obtain ⟨hvalid, hcontents⟩ := h.valid.put hfull b
  exact ⟨⟨hvalid, h.size⟩, hcontents⟩

theorem read_inside (hinside : 0 < w.rx.contents.length ∧ w.rx.contents.length < bufferLength - 1) :
    w.read.1 = w.rx.contents.head? ∧ Holds w.read.2 w.rx.contents.tail := by
  have hempty : ¬ w.rx.IsEmpty := by
    rw [h.isEmpty_iff, ← List.length_eq_zero_iff]
    omega
  have hfull : ¬ w.rx.IsFull := by
    rw [h.isFull_iff]
    omega
  obtain ⟨hvalid, hcontents⟩ := h.valid.skip hempty
  rw [TwoWire.read, if_neg hfull, hcontents]
  exact ⟨rfl, ⟨hvalid, h.size⟩, rfl⟩

theorem read_eq_iff :
    w.read.1 = w.rx.contents.head? ↔ 0 < w.rx.contents.length ∧ w.rx.contents.length < bufferLength - 1 := by
  refine ⟨fun hread => ?_, fun hinside => (h.read_inside hinside).1⟩
  have hlt := h.valid.fill_lt
  rw [← IndexRing.length_contents, h.size] at hlt
  by_cases hfull : w.rx.IsFull
  · rw [TwoWire.read, if_pos hfull, eq_comm, List.head?_eq_none_iff] at hread
    rw [h.isFull_iff, hread] at hfull
    cases hfull
  · have hne : w.rx.contents ≠ [] := by
      intro hnil
      rw [TwoWire.read, if_neg hfull, hnil] at hread
      cases hread
    rw [h.isFull_iff] at hfull
    have hpos := List.length_pos_iff.mpr hne
    omega

end Receiving

namespace Holds

variable (h : Holds w q)

include h

theorem answers_iff (c : ReceiveCall α) : AnswersAsQueue (w, q) c ↔ ReadsInside (w, q) c := by
  obtain ⟨hrec, rfl⟩ := h
  cases c with
  | getRxData b =>
    refine iff_of_true ?_ nofun
    simp only [AnswersAsQueue, TwoWire.call, queueCall, TwoWire.getRxData]
    split <;> rfl
  | slaveReceive firstByte data => exact iff_of_true rfl nofun
  | read =>
    simp only [AnswersAsQueue, TwoWire.call, queueCall, Answer.value.injEq, ReadsInside, forall_const]
    exact hrec.read_eq_iff
  | peek => exact iff_of_true (congrArg Answer.value hrec.peek_eq) nofun
  | available => exact iff_of_true (congrArg Answer.count hrec.available_eq) nofun
  | flush => exact iff_of_true rfl nofun

theorem slaveReceive (firstByte : Bool) (data : α) :
    Holds (w.slaveReceive firstByte data) (if q.length = bufferLength - 1 then q else q ++ [data]) := by
  let v : TwoWire α := if firstByte then { w with currentState := .slaveRx } else w
  have hrx : v.rx = w.rx := by
    simp only [v]
    split <;> rfl
  have hv : Receiving v := ⟨hrx ▸ h.valid, hrx ▸ h.size⟩
  have hq : v.rx.contents = q := hrx ▸ h.contents
  change Holds (if v.rx.IsFull then v else { v with rx := v.rx.put data }) _
  rw [← hq]
  by_cases hfull : v.rx.IsFull
  · rw [if_pos hfull, if_pos (hv.isFull_iff.mp hfull)]
    exact ⟨hv, rfl⟩
  · have hlt := hv.valid.fill_lt
    rw [← IndexRing.length_contents, hv.size] at hlt
    rw [if_neg hfull, if_neg (mt hv.isFull_iff.mpr hfull)]
    rw [hv.isFull_iff] at hfull
    exact hv.put (by omega) data

theorem step {c : ReceiveCall α} (hroom : HasRoom q c) (hread : ReadsInside (w, q) c) :
    Holds (receiveStep (w, q) c).1 (receiveStep (w, q) c).2 := by
  cases c with
  | getRxData b =>
    simp only [receiveStep, TwoWire.call, queueCall, TwoWire.getRxData]
    by_cases herror : b.error = 0
    · rw [if_neg (not_not.mpr herror), if_neg (not_not.mpr herror), ← h.contents]
      apply h.toReceiving.put
      rw [h.contents]
      exact hroom herror
    · rw [if_pos herror, if_pos herror]
      exact h
  | slaveReceive firstByte data => exact h.slaveReceive firstByte data
  | read =>
    obtain ⟨hrec, rfl⟩ := h
    exact (hrec.read_inside (hread rfl)).2
  | peek => exact h
  | available => exact h
  | flush =>
    have hempty : w.flush.rx.IsEmpty := rfl
    have hflush : Receiving w.flush := ⟨⟨h.valid.write, h.valid.write⟩, h.size⟩
    exact ⟨hflush, hflush.isEmpty_iff.mp hempty⟩

end Holds

/-- What the property says of the next read() and peek() in one state. -/
structure CallLaws (w : TwoWire α) : Prop where
  empty : w.read.1 = none ↔ w.available = 0
  oldest : w.available ≠ 0 → w.read.1 = w.rx.contents.head? ∧ w.read.2.available = w.available - 1
  agree : w.peek = w.read.1

theorem callLaws_iff (h : Receiving w) : CallLaws w ↔ 0 < w.available ∧ w.available < bufferLength - 1 := by
  have hinside : 0 < w.available ∧ w.available < bufferLength - 1 ↔
      0 < w.rx.contents.length ∧ w.rx.contents.length < bufferLength - 1 := by
    have hsize : bufferLength = 64 := rfl
    rw [h.available_eq]
    omega
  rw [hinside, ← h.read_eq_iff]
  constructor
  · intro hlaws
    rw [← hlaws.agree, h.peek_eq]
  · intro hread
    obtain ⟨hhead, hafter⟩ := h.read_inside (h.read_eq_iff.mp hread)
    have hpos := (h.read_eq_iff.mp hread).1
    refine ⟨?_, fun _ => ⟨hread, ?_⟩, h.peek_eq.trans hread.symm⟩
    · rw [hread, List.head?_eq_none_iff, h.available_eq, ← List.length_eq_zero_iff, Nat.cast_eq_zero]
    · rw [hafter.available_eq, hafter.contents, h.available_eq, List.length_tail]
      omega

/-- In one state and over every run of calls. -/
theorem wire_receives_as_queue_iff (w : TwoWire α) (h : Receiving w) :
    (CallLaws w ↔ 0 < w.available ∧ w.available < bufferLength - 1) ∧
    ∀ calls : List (ReceiveCall α), receiveMachine.Legal (w, w.rx.contents) calls →
      ((Machine.mk AnswersAsQueue receiveStep).Legal (w, w.rx.contents) calls ↔
        (Machine.mk ReadsInside receiveStep).Legal (w, w.rx.contents) calls) := by
  refine ⟨callLaws_iff h, fun calls hlegal => ?_⟩
  have hstart : Holds w w.rx.contents := ⟨h, rfl⟩
  refine Machine.legal_congr (M := receiveMachine) (I := fun s => Holds s.1 s.2) ?_ ?_ hstart hlegal
  · intro s c hs _
    exact hs.answers_iff c
  · intro s c hs hroom hread
    exact hs.step hroom hread

end Calls

theorem wire_receives_two_bytes :
    (Machine.mk AnswersAsQueue receiveStep).Legal (TwoWire.construct fun _ => (0 : UInt8), [])
      [.getRxData ⟨0, 7⟩, .slaveReceive true 8, .read, .peek, .read, .flush, .available] := by
  have hfresh : Receiving (TwoWire.construct fun _ => (0 : UInt8)) := ⟨⟨by decide, by decide⟩, rfl⟩
  apply ((wire_receives_as_queue_iff _ hfresh).2 _ ?_).mpr
  · exact ⟨nofun, nofun, fun _ => by decide, nofun, fun _ => by decide, nofun, nofun, trivial⟩
  · exact ⟨fun _ => by decide, trivial, trivial, trivial, trivial, trivial, trivial, trivial⟩

/-- read() takes a byte from the empty buffer of a new object, which then counts 63 of them. -/
theorem wire_read_of_empty_buffer :
    let w : TwoWire UInt8 := TwoWire.construct fun _ => 0
    w.available = 0 ∧ w.read.1 = some 0 ∧ w.read.2.available = 63 ∧
      ¬ (Machine.mk AnswersAsQueue receiveStep).Legal (w, []) [.read] := by
  intro w
  refine ⟨by decide, by decide, by decide, ?_⟩
  rintro ⟨hanswer, -⟩
  cases Answer.value.inj hanswer

end LogoCore.Wire
