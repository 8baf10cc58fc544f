import LogoCore.WireReceive

namespace LogoCore.Wire

def runBit : UInt32 := 0x1

def startBit : UInt32 := 0x2

def stopBit : UInt32 := 0x4

def ackBit : UInt32 := 0x8

inductive BusAccess
  | slaveAddress (address : UInt8) (receive : Bool)
  | command (cmd : UInt32)
  | errorStop

structure Request (α : Type) where
  returned : UInt8
  received : List α
  accesses : List BusAccess
  after : TwoWire α

namespace TwoWire

variable {α : Type}

def rxAccesses (cmd : UInt32) (b : BusByte α) : List BusAccess :=
  if b.error ≠ 0 then [.command cmd, .errorStop] else [.command cmd]

-- what an error makes the call return, the bytes stored, the accesses, the object; `left` turns from `i` on
def receiveRest (bus : ℕ → BusByte α) (quantity : ℕ) :
    ℕ → ℕ → TwoWire α → Option ℕ × List α × List BusAccess × TwoWire α
  | 0, _, w => (none, [], [], w)
  | left + 1, i, w =>
    let cmd := if i = quantity - 1 then runBit else runBit ||| ackBit
    let r := w.getRxData (bus i)
    if r.1 ≠ 0 then (some i, [], rxAccesses cmd (bus i), r.2)
    else
      let rest := receiveRest bus quantity left (i + 1) r.2
      (rest.1, (bus i).data :: rest.2.1, rxAccesses cmd (bus i) ++ rest.2.2.1, rest.2.2.2)

def stop (w : TwoWire α) (sendStop : UInt8) : List BusAccess × TwoWire α :=
  if sendStop ≠ 0 then ([.command stopBit], { w with currentState := .idle }) else ([], w)

/-- `bus i` is what the bus gives for byte `i` of the request. -/
def requestFrom (w : TwoWire α) (address quantity sendStop : UInt8) (bus : ℕ → BusByte α) : Request α :=
  let oldWriteIndex := w.rx.writeIndex
  let spaceAvailable :=
    if w.rx.readIndex ≤ w.rx.writeIndex then bufferLength - (w.rx.writeIndex - w.rx.readIndex)
    else w.rx.readIndex - w.rx.writeIndex
  let quantity := if quantity.toNat > spaceAvailable then spaceAvailable else quantity.toNat
  if quantity = 0 then ⟨0, [], [], w⟩
  else
    let cmd :=
      if quantity > 1 ∨ sendStop = 0 then runBit ||| startBit ||| ackBit
      else runBit ||| startBit ||| sendStop.toUInt32 <<< 2
    let first := w.getRxData (bus 0)
    let accesses := .slaveAddress address true :: rxAccesses cmd (bus 0)
    if first.1 ≠ 0 then ⟨0, [], accesses, first.2⟩
    else
      let rest := receiveRest bus quantity (quantity - 1) 1 { first.2 with currentState := .masterRx }
      let received := (bus 0).data :: rest.2.1
      let accesses := accesses ++ rest.2.2.1
      match rest.1 with
      | some i => ⟨UInt8.ofNat i, received, accesses, rest.2.2.2⟩
      | none =>
        let stop := rest.2.2.2.stop sendStop
        let bytesWritten :=
          if oldWriteIndex ≤ stop.2.rx.writeIndex then stop.2.rx.writeIndex - oldWriteIndex
          else oldWriteIndex - stop.2.rx.writeIndex
        ⟨UInt8.ofNat bytesWritten, received, accesses ++ stop.1, stop.2⟩

def granted (w : TwoWire α) (quantity : UInt8) : ℕ := min quantity.toNat (bufferLength - w.rx.fill)

end TwoWire

open TwoWire

structure Arrives {α : Type} (bus : ℕ → BusByte α) (i limit n : ℕ) : Prop where
  le : n ≤ limit
  clean : ∀ j < n, (bus (i + j)).error = 0
  stops : n < limit → (bus (i + n)).error ≠ 0

section Requests

variable {α : Type} {w : TwoWire α} {bus : ℕ → BusByte α}

def arrived (bus : ℕ → BusByte α) (i n : ℕ) : List α := (List.range n).map fun j => (bus (i + j)).data

theorem length_arrived (i n : ℕ) : (arrived bus i n).length = n := by
  rw [arrived, List.length_map, List.length_range]

theorem arrived_succ (i n : ℕ) : arrived bus i (n + 1) = (bus i).data :: arrived bus (i + 1) n := by
  rw [arrived, List.range_succ_eq_map, List.map_cons, List.map_map, arrived]
  congr 1
  apply List.map_congr_left
  intro j _
  rw [Function.comp_apply, Nat.succ_eq_add_one, Nat.add_assoc, Nat.add_comm 1]

theorem Arrives.succ {i limit n : ℕ} (hfirst : (bus i).error = 0) (h : Arrives bus (i + 1) limit n) :
    Arrives bus i (limit + 1) (n + 1) where
  le := Nat.succ_le_succ h.le
  clean := by
    intro j hj
    cases j with
    | zero => exact hfirst
    | succ j =>
      rw [← Nat.add_assoc, Nat.add_right_comm]
      exact h.clean j (Nat.lt_of_succ_lt_succ hj)
  stops := by
    intro hn
    rw [← Nat.add_assoc, Nat.add_right_comm]
    exact h.stops (Nat.lt_of_succ_lt_succ hn)

theorem Arrives.lt_iff {limit n : ℕ} (h : Arrives bus 0 limit n) : n < limit ↔ ∃ i < limit, (bus i).error ≠ 0 := by
  constructor
  · intro hn
    refine ⟨n, hn, ?_⟩
    have herror := h.stops hn
    rwa [Nat.zero_add] at herror
  · rintro ⟨i, hi, herror⟩
    by_contra hn
    have hclean := h.clean i (by omega)
    rw [Nat.zero_add] at hclean
    exact herror hclean

theorem getRxData_error {b : BusByte α} (h : b.error ≠ 0) : w.getRxData b = (b.error, w) := if_pos h

theorem getRxData_data {b : BusByte α} (h : b.error = 0) :
    w.getRxData b = (b.error, { w with rx := w.rx.put b.data }) := if_neg (not_not.mpr h)

theorem rx_stop (w : TwoWire α) (sendStop : UInt8) : (w.stop sendStop).2.rx = w.rx := by
  unfold TwoWire.stop
  split <;> rfl

theorem receiveRest_error {i : ℕ} (h : (bus i).error ≠ 0) (quantity left : ℕ) (w : TwoWire α) :
    ∃ accesses, receiveRest bus quantity (left + 1) i w = (some i, [], accesses, w) := by
  simp only [receiveRest, getRxData_error h, ne_eq, h, not_false_eq_true, if_true, Prod.mk.injEq, true_and, and_true,
    exists_eq']

theorem receiveRest_data {i : ℕ} (h : (bus i).error = 0) (quantity left : ℕ) (w : TwoWire α) :
    let rest := receiveRest bus quantity left (i + 1) { w with rx := w.rx.put (bus i).data }
    ∃ accesses, receiveRest bus quantity (left + 1) i w =
      (rest.1, (bus i).data :: rest.2.1, accesses ++ rest.2.2.1, rest.2.2.2) := by
  simp only [receiveRest, getRxData_data h, h, ne_eq, not_true_eq_false, if_false]
  exact ⟨_, rfl⟩

theorem receiveRest_arrives (bus : ℕ → BusByte α) (quantity left i : ℕ) (w : TwoWire α) :
    ∃ n, Arrives bus i left n ∧
      (receiveRest bus quantity left i w).1 = (if n < left then some (i + n) else none) ∧
      (receiveRest bus quantity left i w).2.1 = arrived bus i n ∧
      (receiveRest bus quantity left i w).2.2.2.rx = w.rx.putAll (arrived bus i n) := by
  induction left generalizing i w with
  | zero => exact ⟨0, ⟨le_rfl, nofun, nofun⟩, rfl, rfl, rfl⟩
  | succ left ih =>
    by_cases herror : (bus i).error = 0
    · obtain ⟨n, harrives, hearly, hreceived, hring⟩ := ih (i + 1) { w with rx := w.rx.put (bus i).data }
      obtain ⟨accesses, hrest⟩ := receiveRest_data herror quantity left w
      rw [hrest]
      refine ⟨n + 1, harrives.succ herror, ?_, ?_, ?_⟩
      · simp only [hearly, Nat.add_lt_add_iff_right, Nat.add_assoc, Nat.add_comm 1]
      · rw [hreceived, arrived_succ]
      · rw [hring, arrived_succ]
        rfl
    · obtain ⟨accesses, hrest⟩ := receiveRest_error herror quantity left w
      rw [hrest]
      exact ⟨0, ⟨Nat.zero_le _, nofun, fun _ => herror⟩, (if_pos (Nat.succ_pos left)).symm, rfl, rfl⟩

def bytesWritten (oldWriteIndex n : ℕ) : ℕ :=
  if oldWriteIndex ≤ (oldWriteIndex + n) % bufferLength then (oldWriteIndex + n) % bufferLength - oldWriteIndex
  else oldWriteIndex - (oldWriteIndex + n) % bufferLength

theorem bytesWritten_lt {old : ℕ} (h : old < bufferLength) (n : ℕ) : bytesWritten old n < bufferLength := by
  have hmod : (old + n) % bufferLength < bufferLength := Nat.mod_lt _ (by decide)
  unfold bytesWritten
  split <;> omega

theorem bytesWritten_eq_iff {old n : ℕ} (hold : old < bufferLength) (hn : n ≤ bufferLength) :
    bytesWritten old n = n ↔ old + n < bufferLength ∨ n = 32 := by
  unfold bytesWritten
  unfold bufferLength at *
  by_cases hle : old ≤ (old + n) % 64
  · rw [if_pos hle]
    omega
  · rw [if_neg hle]
    omega

theorem toNat_ofNat_of_le {n : ℕ} (h : n ≤ bufferLength) : (UInt8.ofNat n).toNat = n := by
  have hsize : bufferLength = 64 := rfl
  rw [UInt8.toNat_ofNat']
  exact Nat.mod_eq_of_lt (by omega)

theorem granted_eq (h : Receiving w) (quantity : UInt8) :
    (if quantity.toNat >
        if w.rx.readIndex ≤ w.rx.writeIndex then bufferLength - (w.rx.writeIndex - w.rx.readIndex)
        else w.rx.readIndex - w.rx.writeIndex
      then
        if w.rx.readIndex ≤ w.rx.writeIndex then bufferLength - (w.rx.writeIndex - w.rx.readIndex)
        else w.rx.readIndex - w.rx.writeIndex
      else quantity.toNat) = w.granted quantity := by
  have hread := h.valid.read
  have hsize := h.size
  have hspace : (if w.rx.readIndex ≤ w.rx.writeIndex then bufferLength - (w.rx.writeIndex - w.rx.readIndex)
      else w.rx.readIndex - w.rx.writeIndex) = bufferLength - w.rx.fill := by
    rw [IndexRing.fill, hsize]
    split <;> omega
  rw [hspace, granted]
  split <;> omega

structure Requests (w : TwoWire α) (bus : ℕ → BusByte α) (limit n : ℕ) (r : Request α) : Prop where
  arrives : Arrives bus 0 limit n
  received : r.received = arrived bus 0 n
  ring : r.after.rx = w.rx.putAll (arrived bus 0 n)
  returned : r.returned.toNat = if n < limit then n else bytesWritten w.rx.writeIndex n

theorem requestFrom_requests (h : Receiving w) (address quantity sendStop : UInt8) (bus : ℕ → BusByte α) :
    ∃ n, Requests w bus (w.granted quantity) n (w.requestFrom address quantity sendStop bus) := by
  have hwrite : w.rx.writeIndex < bufferLength := h.size ▸ h.valid.write
  have hle : w.granted quantity ≤ bufferLength := (Nat.min_le_right _ _).trans (Nat.sub_le _ _)
  simp only [requestFrom, granted_eq h]
  by_cases hzero : w.granted quantity = 0
  · rw [if_pos hzero, hzero]
    refine ⟨0, ⟨le_rfl, nofun, nofun⟩, rfl, rfl, ?_⟩
    rw [if_neg (Nat.lt_irrefl 0), bytesWritten, Nat.add_zero, Nat.mod_eq_of_lt hwrite, if_pos le_rfl, Nat.sub_self]
    rfl
  rw [if_neg hzero]
  obtain ⟨left, hleft⟩ := Nat.exists_eq_succ_of_ne_zero hzero
  rw [hleft] at hle ⊢
  by_cases herror : (bus 0).error = 0
  · obtain ⟨n, harrives, hearly, hreceived, hring⟩ :=
      receiveRest_arrives bus (left + 1) left 1 { w with rx := w.rx.put (bus 0).data, currentState := .masterRx }
    have hn := harrives.le
    have hall : Arrives bus 0 (left + 1) (n + 1) := harrives.succ herror
    have hputs : w.rx.putAll (arrived bus 0 (n + 1)) = (w.rx.put (bus 0).data).putAll (arrived bus 1 n) := by
      rw [arrived_succ]
      rfl
    simp only [getRxData_data herror, herror, ne_eq, not_true_eq_false, if_false, Nat.succ_eq_add_one,
      Nat.add_sub_cancel, hearly, hreceived]
    refine ⟨n + 1, ?_⟩
    by_cases hstop : n < left
    · simp only [hstop, if_true]
      refine ⟨hall, (arrived_succ 0 n).symm, hring.trans hputs.symm, ?_⟩
      rw [if_pos (Nat.succ_lt_succ hstop), toNat_ofNat_of_le (by omega), Nat.add_comm]
    · have hlast : ¬ n + 1 < left + 1 := mt Nat.lt_of_succ_lt_succ hstop
      have hindex := IndexRing.writeIndex_putAll h.valid.write (arrived bus 0 (n + 1))
      rw [length_arrived, h.size] at hindex
      simp only [hstop, if_false, rx_stop, hring, ← hputs, hindex]
      refine ⟨hall, (arrived_succ 0 n).symm, (rx_stop _ _).trans (hring.trans hputs.symm), ?_⟩
      rw [if_neg hlast]
      exact toNat_ofNat_of_le (bytesWritten_lt hwrite (n + 1)).le
  · simp only [getRxData_error herror, ne_eq, herror, not_false_eq_true, if_true]
    exact ⟨0, ⟨Nat.zero_le _, nofun, fun _ => herror⟩, rfl, rfl, (if_pos (Nat.succ_pos left)).symm⟩

structure Accounts (w : TwoWire α) (r : Request α) : Prop where
  kept : ∀ k < w.rx.fill, r.after.rx.cells ((w.rx.readIndex + k) % bufferLength) =
    w.rx.cells ((w.rx.readIndex + k) % bufferLength)
  appended : r.after.rx.contents = w.rx.contents ++ r.received
  returned : r.returned.toNat = r.received.length
  available : r.after.available = w.available + r.received.length

section Outcome

variable {limit n : ℕ} {r : Request α} (h : Receiving w) (hr : Requests w bus limit n r)
  (hlimit : w.rx.fill + limit ≤ bufferLength)

include h hr

theorem Requests.receiving : Receiving r.after := by
  obtain ⟨hvalid, -⟩ := h.valid.putAll (arrived bus 0 n)
  refine ⟨?_, ?_⟩
  · rwa [hr.ring]
  · rw [hr.ring, IndexRing.size_putAll, h.size]

theorem Requests.fill_after : r.after.rx.fill = (w.rx.fill + n) % bufferLength := by
  rw [hr.ring, (h.valid.putAll (arrived bus 0 n)).2, length_arrived, h.size]

include hlimit

theorem Requests.kept (k : ℕ) (hk : k < w.rx.fill) :
    r.after.rx.cells ((w.rx.readIndex + k) % bufferLength) = w.rx.cells ((w.rx.readIndex + k) % bufferLength) := by
  have hn := hr.arrives.le
  rw [hr.ring, ← h.size]
  apply h.valid.cells_putAll _ hk
  rw [length_arrived, h.size]
  omega

theorem Requests.accounts_iff :
    Accounts w r ↔ n < limit ∨
      (w.rx.fill + limit < bufferLength ∧ (w.rx.writeIndex + limit < bufferLength ∨ limit = 32)) := by
  have hn := hr.arrives.le
  have hwrite : w.rx.writeIndex < bufferLength := h.size ▸ h.valid.write
  have hlength : r.received.length = n := by rw [hr.received, length_arrived]
  have havailable : r.after.available = w.available + r.received.length ↔ w.rx.fill + n < bufferLength := by
    rw [(hr.receiving h).available_eq, h.available_eq, IndexRing.length_contents, IndexRing.length_contents,
      hr.fill_after h, hlength, ← Nat.cast_add, Nat.cast_inj]
    exact ⟨fun hfill => hfill ▸ Nat.mod_lt _ (by decide), Nat.mod_eq_of_lt⟩
  have hreturned : r.returned.toNat = r.received.length ↔
      n < limit ∨ (w.rx.writeIndex + n < bufferLength ∨ n = 32) := by
    rw [hr.returned, hlength, ← bytesWritten_eq_iff hwrite (by omega)]
    by_cases hstop : n < limit
    · rw [if_pos hstop]
      exact iff_of_true rfl (.inl hstop)
    · rw [if_neg hstop, or_iff_right hstop]
  constructor
  · intro haccounts
    have hfill := havailable.mp haccounts.available
    by_cases hstop : n < limit
    · exact .inl hstop
    · obtain rfl : n = limit := by omega
      exact .inr ⟨hfill, (hreturned.mp haccounts.returned).resolve_left hstop⟩
  · intro hcond
    have hfill : w.rx.fill + n < bufferLength := by omega
    refine ⟨hr.kept h hlimit, ?_, hreturned.mpr ?_, havailable.mpr hfill⟩
    · rw [hr.ring, hr.received]
      apply h.valid.contents_putAll
      rwa [length_arrived, h.size]
    · by_cases hstop : n < limit
      · exact .inl hstop
      · obtain rfl : n = limit := by omega
        exact .inr (hcond.resolve_left hstop).2

end Outcome

theorem requestFrom_accounts_iff (w : TwoWire α) (h : Receiving w) (address quantity sendStop : UInt8)
    (bus : ℕ → BusByte α) :
    (∀ k < w.rx.fill, (w.requestFrom address quantity sendStop bus).after.rx.cells
        ((w.rx.readIndex + k) % bufferLength) = w.rx.cells ((w.rx.readIndex + k) % bufferLength)) ∧
    (Accounts w (w.requestFrom address quantity sendStop bus) ↔
      (∃ i < w.granted quantity, (bus i).error ≠ 0) ∨
        (w.rx.fill + w.granted quantity < bufferLength ∧
          (w.rx.writeIndex + w.granted quantity < bufferLength ∨ w.granted quantity = 32))) := by
  obtain ⟨n, hr⟩ := requestFrom_requests h address quantity sendStop bus
  have hlimit : w.rx.fill + w.granted quantity ≤ bufferLength := by
    have hfill := h.valid.fill_lt
    rw [h.size] at hfill
    have hle : w.granted quantity ≤ bufferLength - w.rx.fill := Nat.min_le_right _ _
    omega
  refine ⟨hr.kept h hlimit, ?_⟩
  rw [hr.accounts_iff h hlimit, hr.arrives.lt_iff]

end Requests

theorem fresh_requestFrom_accounts :
    Accounts (TwoWire.construct fun _ => (0 : UInt8))
      ((TwoWire.construct fun _ => 0).requestFrom 80 6 1 fun i => ⟨0, UInt8.ofNat i⟩) :=
  ((requestFrom_accounts_iff _ ⟨⟨by decide, by decide⟩, rfl⟩ 80 6 1 _).2).mpr (.inr ⟨by decide, .inl (by decide)⟩)

def lateObject : TwoWire UInt8 :=
  { TwoWire.construct fun _ => 0 with rx := ⟨fun _ => 0, bufferLength, 60, 60⟩ }

/-- Ten bytes are stored and 54 reported; 64 bytes are stored and none is left to read. -/
theorem requestFrom_miscounts :
    let r := lateObject.requestFrom 80 10 1 fun i => ⟨0, UInt8.ofNat i⟩
    let r' := (TwoWire.construct fun _ => (0 : UInt8)).requestFrom 80 64 1 fun i => ⟨0, UInt8.ofNat i⟩
    (r.received.length = 10 ∧ r.returned = 54 ∧ ¬ Accounts lateObject r) ∧
      r'.received.length = 64 ∧ r'.returned = 0 ∧ r'.after.available = 0 := by
  intro r r'
  have hreturned : r.returned = 54 := by decide
  have hreceived : r.received.length = 10 := by decide
  refine ⟨⟨hreceived, hreturned, fun h => ?_⟩, by decide, by decide, by decide⟩
  have hcount := h.returned
  rw [hreturned, hreceived] at hcount
  exact absurd hcount (by decide)

end LogoCore.Wire
