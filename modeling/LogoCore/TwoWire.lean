import Mathlib.Data.UInt
import LogoCore.IndexRing

namespace LogoCore.Wire

def bufferLength : ℕ := 64

inductive BusState
  | idle
  | masterTx
  | masterRx
  | slaveRx
  deriving DecidableEq

/-- A TwoWire object, over any type of bytes. `slaveData` is what went to a master in slave mode. -/
structure TwoWire (α : Type) where
  tx : IndexRing α
  rx : IndexRing α
  txAddress : UInt8
  transmitting : Bool
  currentState : BusState
  writeError : Bool
  slaveData : List α

def getError (thrownError : UInt8) : UInt8 :=
  if thrownError = 4 then 2 else if thrownError = 8 then 3 else if thrownError ≠ 0 then 4 else 0

namespace TwoWire

variable {α : Type}

def construct (cells : ℕ → α) : TwoWire α :=
  ⟨⟨cells, bufferLength, 0, 0⟩, ⟨cells, bufferLength, 0, 0⟩, 0, false, .idle, false, []⟩

def beginTransmission (w : TwoWire α) (address : UInt8) : TwoWire α :=
  { w with transmitting := true, txAddress := address }

def write (w : TwoWire α) (data : α) : ℕ × TwoWire α :=
  if w.transmitting then
    if w.tx.IsFull then (0, { w with writeError := true }) else (1, { w with tx := w.tx.put data })
  else if w.tx.IsFull then
    (1, { w with slaveData := w.slaveData ++ [w.tx.cells w.tx.readIndex], tx := w.tx.skip.put data })
  else (1, { w with tx := w.tx.put data })

-- the loop of write(data, quantity), with the bytes that it accepts
def writeEach : List α → TwoWire α → List α × TwoWire α
  | [], w => ([], w)
  | b :: bs, w =>
    let r := w.write b
    let rest := writeEach bs r.2
    (if r.1 = 0 then rest.1 else b :: rest.1, rest.2)

def writeBuffer (w : TwoWire α) (data : List α) : ℕ × TwoWire α := (data.length, (writeEach data w).2)

def flush (w : TwoWire α) : TwoWire α :=
  { w with tx := { w.tx with writeIndex := 0 }, rx := { w.rx with readIndex := w.rx.writeIndex } }

/-- `errors k` is what I2CMasterErr gives for byte `k` of a transmission. -/
def sendTxData (errors : ℕ → UInt8) (k : ℕ) : UInt8 := getError (errors k)

-- error, bytes sent, state; none: the loop does not end within the turns given
def sendRest (errors : ℕ → UInt8) : ℕ → ℕ → TwoWire α → Option (UInt8 × List α × TwoWire α)
  | 0, _, w => if w.tx.IsEmpty then some (0, [], w) else none
  | n + 1, k, w =>
    if w.tx.IsEmpty then some (0, [], w)
    else
      let b := w.tx.cells w.tx.readIndex
      let error := sendTxData errors k
      let w := { w with tx := w.tx.skip }
      if error ≠ 0 then some (getError error, [b], w)
      else (sendRest errors n (k + 1) w).map fun r => (r.1, b :: r.2.1, r.2.2)

def endTransmission (w : TwoWire α) (sendStop : Bool) (errors : ℕ → UInt8) :
    Option (UInt8 × List α × TwoWire α) :=
  if w.tx.IsEmpty then some (0, [], w)
  else
    let b := w.tx.cells w.tx.readIndex
    let error := sendTxData errors 0
    let w := { w with tx := w.tx.skip }
    if error ≠ 0 then some (error, [b], w)
    else (sendRest errors bufferLength 1 w).map fun r =>
      if r.1 ≠ 0 then (r.1, b :: r.2.1, r.2.2)
      else (0, b :: r.2.1,
        { r.2.2 with currentState := if sendStop then .idle else .masterTx, transmitting := false })

end TwoWire

theorem getError_eq_zero {e : UInt8} : getError e = 0 ↔ e = 0 := by
  unfold getError
  split_ifs <;> simp_all

namespace TwoWire

variable {α : Type} {w : TwoWire α}

theorem write_transmitting (h : w.transmitting = true) (b : α) :
    w.tx.IsFull ∧ w.write b = (0, { w with writeError := true }) ∨
    ¬ w.tx.IsFull ∧ w.write b = (1, { w with tx := w.tx.put b }) := by
  unfold write
  rw [if_pos h]
  by_cases hfull : w.tx.IsFull
  · exact Or.inl ⟨hfull, if_pos hfull⟩
  · exact Or.inr ⟨hfull, if_neg hfull⟩

end TwoWire

structure Sends {α : Type} (errors : ℕ → UInt8) (r : IndexRing α) (bs : List α) (r' : IndexRing α) : Prop where
  valid : r'.Valid
  size : r'.size = r.size
  cells : r'.cells = r.cells
  split : r.contents = bs ++ r'.contents
  complete : (∀ j < bs.length, errors j = 0) → r'.contents = []

namespace Sends

variable {α : Type} {errors : ℕ → UInt8} {r r' : IndexRing α} {bs : List α}

theorem nil (hvalid : r.Valid) (hempty : r.IsEmpty) : Sends errors r [] r := by
  refine ⟨hvalid, rfl, rfl, rfl, fun _ => ?_⟩
  rw [← List.length_eq_zero_iff, IndexRing.length_contents]
  exact hvalid.isEmpty_iff.mp hempty

theorem fail (hvalid : r.Valid) (hempty : ¬ r.IsEmpty) (herror : errors 0 ≠ 0) :
    Sends errors r [r.cells r.readIndex] r.skip := by
  obtain ⟨hskip, hcons⟩ := hvalid.skip hempty
  exact ⟨hskip, rfl, rfl, hcons, fun hno => absurd (hno 0 Nat.one_pos) herror⟩

theorem cons (hvalid : r.Valid) (hempty : ¬ r.IsEmpty) (h : Sends (fun j => errors (j + 1)) r.skip bs r') :
    Sends errors r (r.cells r.readIndex :: bs) r' := by
  refine ⟨h.valid, h.size, h.cells, ?_, ?_⟩
  · rw [(hvalid.skip hempty).2, h.split, List.cons_append]
  · intro hno
    apply h.complete
    intro j hj
    exact hno (j + 1) (Nat.succ_lt_succ hj)

end Sends

namespace TwoWire

variable {α : Type}

theorem sendRest_sends (errors : ℕ → UInt8) {n : ℕ} (k : ℕ) {w : TwoWire α} (hvalid : w.tx.Valid)
    (hn : w.tx.fill ≤ n) :
    ∃ error bs w', sendRest errors n k w = some (error, bs, w') ∧ Sends (fun j => errors (k + j)) w.tx bs w'.tx := by
  induction n generalizing k w with
  | zero =>
    have hempty : w.tx.IsEmpty := hvalid.isEmpty_iff.mpr (Nat.le_zero.mp hn)
    refine ⟨0, [], w, ?_, .nil hvalid hempty⟩
    rw [sendRest, if_pos hempty]
  | succ n ih =>
    by_cases hempty : w.tx.IsEmpty
    · refine ⟨0, [], w, ?_, .nil hvalid hempty⟩
      rw [sendRest, if_pos hempty]
    · obtain ⟨hskip, hcons⟩ := hvalid.skip hempty
      simp only [sendRest, if_neg hempty]
      by_cases herror : sendTxData errors k = 0
      · have hfill : w.tx.skip.fill ≤ n := by
          have hlength := congrArg List.length hcons
          rw [List.length_cons, IndexRing.length_contents, IndexRing.length_contents] at hlength
          omega
        obtain ⟨error, bs, w', hsend, hsends⟩ := ih (w := { w with tx := w.tx.skip }) (k + 1) hskip hfill
        refine ⟨error, w.tx.cells w.tx.readIndex :: bs, w', ?_, .cons hvalid hempty ?_⟩
        · rw [if_neg (not_not.mpr herror), hsend, Option.map_some]
        · simpa only [Nat.add_assoc, Nat.add_comm 1] using hsends
      · exact ⟨_, _, _, if_pos herror, .fail hvalid hempty fun hzero => herror (getError_eq_zero.mpr hzero)⟩

theorem endTransmission_sends (sendStop : Bool) (errors : ℕ → UInt8) {w : TwoWire α} (hvalid : w.tx.Valid)
    (hsize : w.tx.size = bufferLength) :
    ∃ error bs w', w.endTransmission sendStop errors = some (error, bs, w') ∧ Sends errors w.tx bs w'.tx ∧
      (bs = [] → w.tx.IsEmpty) := by
  by_cases hempty : w.tx.IsEmpty
  · exact ⟨0, [], w, if_pos hempty, .nil hvalid hempty, fun _ => hempty⟩
  · simp only [endTransmission, if_neg hempty]
    by_cases herror : sendTxData errors 0 = 0
    · have hskip := (hvalid.skip hempty).1
      have hfill : w.tx.skip.fill ≤ bufferLength := hsize ▸ hskip.fill_lt.le
      obtain ⟨error, bs, w', hsend, hsends⟩ := sendRest_sends errors (w := { w with tx := w.tx.skip }) 1 hskip hfill
      have hcons : Sends errors w.tx (w.tx.cells w.tx.readIndex :: bs) w'.tx := by
        apply Sends.cons hvalid hempty
        simpa only [Nat.add_comm 1] using hsends
      rw [if_neg (not_not.mpr herror), hsend, Option.map_some]
      by_cases hrest : error = 0
      · refine ⟨_, _, _, congrArg some (if_neg (not_not.mpr hrest)), hcons, fun h => nomatch h⟩
      · exact ⟨_, _, _, congrArg some (if_pos hrest), hcons, fun h => nomatch h⟩
    · refine ⟨_, _, _, if_pos herror, .fail hvalid hempty fun hzero => herror (getError_eq_zero.mpr hzero), ?_⟩
      exact fun h => nomatch h

end TwoWire

end LogoCore.Wire
