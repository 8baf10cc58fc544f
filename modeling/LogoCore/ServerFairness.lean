import LogoCore.EthernetServer
import LogoCore.RoundRobin

namespace LogoCore.Ethernet

namespace EthernetServer

def nextClient (lastClient : UInt8) : UInt8 := if lastClient + 1 ≥ 8 then 0 else lastClient + 1

def slotAt (lastClient : UInt8) : Slot := Fin.ofNat maxClients lastClient.toNat

def scanByte (clients : Slots) (net : Net) : ℕ → UInt8 → UInt8 × Option Slot
  | 0, last => (last, none)
  | left + 1, last =>
    if ready clients net (slotAt (nextClient last)) then (nextClient last, some (slotAt (nextClient last)))
    else scanByte clients net left (nextClient last)

/-- `available()` for any value of `lastClient`: the handle, the slots and `lastClient` afterwards. -/
def availableFrom (clients : Slots) (net : Net) (mem : Client) (lastClient : UInt8) :
    EthernetClient × Slots × UInt8 :=
  let (last, found) := scanByte clients net maxClients lastClient
  let (e, clients) := handle clients mem found
  (e, clients, last)

/-- Consecutive calls, each on the slots and the control blocks as it finds them. -/
def serve : List (Slots × Net × Client) → UInt8 → List EthernetClient
  | [], _ => []
  | (clients, net, mem) :: ws, last =>
    (availableFrom clients net mem last).1 :: serve ws (availableFrom clients net mem last).2.2

variable {clients : Slots} {net : Net} {mem : Client}

def byteOf (i : Slot) : UInt8 := UInt8.ofNat i.val

def cursor (lastClient : UInt8) : Slot := if h : lastClient.toNat < maxClients then ⟨lastClient.toNat, h⟩ else 7

theorem nextClient_eq (last : UInt8) : nextClient last = byteOf (cursor last + 1) := by
  have hlt := last.toNat_lt
  apply UInt8.toNat_inj.mp
  have hstep : (last + 1).toNat = (last.toNat + 1) % 256 := by rw [UInt8.toNat_add, UInt8.toNat_one]
  have hge : last + 1 ≥ 8 ↔ 8 ≤ (last.toNat + 1) % 256 := by
    rw [← hstep]
    exact UInt8.le_iff_toNat_le
  have hbyte (i : Slot) : (byteOf i).toNat = i.val := by
    rw [byteOf, UInt8.toNat_ofNat']
    exact Nat.mod_eq_of_lt (i.isLt.trans (by decide))
  rw [hbyte, nextClient, cursor]
  by_cases hin : last.toNat < 8
  · rw [dif_pos hin, Fin.val_add, Fin.val_one]
    change _ = (last.toNat + 1) % 8
    split_ifs with h
    · have := hge.mp h
      simp only [UInt8.toNat_zero]
      omega
    · have := mt hge.mpr h
      rw [hstep]
      omega
  · rw [dif_neg hin]
    split_ifs with h
    · rfl
    · have := mt hge.mpr h
      rw [hstep]
      change (last.toNat + 1) % 256 = 0
      omega

theorem slotAt_byteOf (i : Slot) : slotAt (byteOf i) = i := by
  revert i
  decide

theorem cursor_byteOf (i : Slot) : cursor (byteOf i) = i := by
  revert i
  decide

theorem scanByte_eq (left : ℕ) (last : UInt8) :
    scanByte clients net (left + 1) last =
      (byteOf (scan clients net (left + 1) (cursor last)).1, (scan clients net (left + 1) (cursor last)).2) := by
  induction left generalizing last with
  | zero =>
    simp only [scanByte, scan, nextClient_eq, slotAt_byteOf]
    split_ifs <;> rfl
  | succ left ih =>
    rw [scanByte, scan, nextClient_eq, slotAt_byteOf, ih, cursor_byteOf]
    split_ifs <;> rfl

theorem slot_cycle : RoundRobin.Cycle (fun i : Slot => i + 1) maxClients := by
  refine ⟨?_, ?_, ?_⟩ <;> decide

theorem scan_eq (left : ℕ) (last : Slot) :
    scan clients net left last =
      match (RoundRobin.visits (fun i : Slot => i + 1) left last).find? (ready clients net) with
      | some i => (i, some i)
      | none => ((fun i : Slot => i + 1)^[left] last, none) := by
  induction left generalizing last with
  | zero => rfl
  | succ left ih =>
    rw [scan, RoundRobin.visits, List.find?_cons, ih]
    cases hr : ready clients net (last + 1) with
    | true => rfl
    | false => rfl

/-- The slot that `available()` picks. -/
def found (clients : Slots) (net : Net) (last : UInt8) : Option Slot :=
  (RoundRobin.visits (fun i : Slot => i + 1) maxClients (cursor last)).find? (ready clients net)

theorem availableFrom_some {last : UInt8} {i : Slot} (h : found clients net last = some i) :
    availableFrom clients net mem last =
      ((handle clients mem (some i)).1, (handle clients mem (some i)).2, byteOf i) := by
  unfold found at h
  rw [availableFrom, scanByte_eq, scan_eq, h]

theorem availableFrom_none {last : UInt8} (h : found clients net last = none) :
    availableFrom clients net mem last =
      ((handle clients mem none).1, (handle clients mem none).2, byteOf (cursor last)) := by
  unfold found at h
  rw [availableFrom, scanByte_eq, scan_eq, h]
  simp only [slot_cycle.period]

theorem found_isSome_iff (last : UInt8) :
    (∃ i, found clients net last = some i) ↔ ∃ i, ready clients net i = true := by
  constructor
  · rintro ⟨i, hi⟩
    exact ⟨i, List.find?_some hi⟩
  · rintro ⟨i, hi⟩
    exact Option.isSome_iff_exists.mp (List.find?_isSome.mpr ⟨i, slot_cycle.all _ i, hi⟩)

def HandsOut (clients : Slots) (mem : Client) (i : Slot) (r : EthernetClient × Slots × UInt8) : Prop :=
  r.1 = ⟨mem, true, .slot i, (clients i).generation⟩ ∧
    r.2.1 = Function.update clients i { clients i with mode := false }

def HandsOutNone (clients : Slots) (net : Net) (r : EthernetClient × Slots × UInt8) : Prop :=
  r.1.cs = .own ∧ Conn.toBool ⟨r.1, r.2.1, net⟩ = false ∧ r.2.1 = clients

theorem availableFrom_cases (clients : Slots) (net : Net) (mem : Client) (last : UInt8) :
    (∃ i, ready clients net i = true ∧ found clients net last = some i ∧
      HandsOut clients mem i (availableFrom clients net mem last)) ∨
    ((∀ i, ready clients net i = false) ∧ HandsOutNone clients net (availableFrom clients net mem last)) := by
  cases hf : found clients net last with
  | some i =>
    refine .inl ⟨i, List.find?_some hf, rfl, ?_⟩
    rw [availableFrom_some hf]
    exact ⟨rfl, rfl⟩
  | none =>
    refine .inr ⟨fun i => ?_, ?_⟩
    · by_contra hi
      obtain ⟨j, hj⟩ := (found_isSome_iff last).mpr ⟨i, Bool.not_eq_false _ ▸ hi⟩
      exact absurd (hf.symm.trans hj) (by simp)
    · rw [availableFrom_none hf]
      exact ⟨rfl, rfl, rfl⟩

theorem serve_eq {R : Slot → Bool} {ws : List (Slots × Net × Client)} (hws : ∀ w ∈ ws, ready w.1 w.2.1 = R)
    (last : UInt8) (hlen : ws.length ≤ (RoundRobin.queue (fun i : Slot => i + 1) maxClients R (cursor last)).length) :
    (serve ws last).map EthernetClient.cs =
      (RoundRobin.grants (fun i : Slot => i + 1) maxClients R ws.length (cursor last)).map ClientPtr.slot := by
  induction ws generalizing last with
  | nil => rfl
  | cons w ws ih =>
    obtain ⟨clients, net, mem⟩ := w
    have hR : ready clients net = R := hws (clients, net, mem) (by simp)
    rw [serve, List.map_cons, List.length_cons, RoundRobin.grants, ← hR]
    cases hf : found clients net last with
    | none =>
      have hnone : (RoundRobin.visits (fun i : Slot => i + 1) maxClients (cursor last)).find? R = none := hR ▸ hf
      rw [RoundRobin.queue_eq_nil hnone] at hlen
      exact absurd hlen (by simp)
    | some i =>
      have hsome : (RoundRobin.visits (fun i : Slot => i + 1) maxClients (cursor last)).find? R = some i := hR ▸ hf
      obtain ⟨rest, hq, hq'⟩ := slot_cycle.queue_next hsome
      rw [hq, List.length_cons, List.length_cons] at hlen
      have hnext := ih (fun w hw => hws w (by simp [hw])) (byteOf i)
        (by rw [cursor_byteOf, hq', List.length_append, List.length_singleton]; omega)
      rw [availableFrom_some hf]
      unfold found at hf
      simp only [hf, List.map_cons]
      rw [hnext, cursor_byteOf, hR]
      rfl

/-- `available()` hands out a ready slot whenever there is one and otherwise a false client, for every value
of `lastClient`; as many calls as there are ready slots hand out each of them once. -/
theorem available_sound_complete_fair :
    (∀ (s : EthernetServer) net mem, s.available net mem =
      ((availableFrom s.clients net mem (byteOf s.lastClient)).1,
        { s with
          clients := (availableFrom s.clients net mem (byteOf s.lastClient)).2.1
          lastClient := slotAt (availableFrom s.clients net mem (byteOf s.lastClient)).2.2 })) ∧
    (∀ clients net mem last,
      ((∃ i, ready clients net i = true) ↔ ∃ i, (availableFrom clients net mem last).1.cs = .slot i) ∧
      (∀ i, (availableFrom clients net mem last).1.cs = .slot i →
        ready clients net i = true ∧ HandsOut clients mem i (availableFrom clients net mem last)) ∧
      ((∀ i, ready clients net i = false) →
        HandsOutNone clients net (availableFrom clients net mem last))) ∧
    ∀ (S : Finset Slot) (ws : List (Slots × Net × Client)) (last : UInt8), ws.length = S.card →
      (∀ w ∈ ws, ∀ i, ready w.1 w.2.1 i = true ↔ i ∈ S) →
        ∃ slots : List Slot, (serve ws last).map EthernetClient.cs = slots.map .slot ∧ slots.Nodup ∧
          ∀ i, i ∈ slots ↔ i ∈ S := by
  refine ⟨fun s net mem => ?_, fun clients net mem last => ?_, fun S ws last hlen hws => ?_⟩
  · unfold EthernetServer.available availableFrom
    simp only [scanByte_eq, cursor_byteOf, slotAt_byteOf]
  · obtain ⟨i, hready, -, hout⟩ | ⟨hnone, hout⟩ := availableFrom_cases clients net mem last
    · have hcs : (availableFrom clients net mem last).1.cs = .slot i := by rw [hout.1]
      refine ⟨iff_of_true ⟨i, hready⟩ ⟨i, hcs⟩, fun j hj => ?_, fun hnone => ?_⟩
      · obtain rfl := ClientPtr.slot.inj (hcs.symm.trans hj)
        exact ⟨hready, hout⟩
      · exact absurd hready (by rw [hnone i]; simp)
    · refine ⟨iff_of_false ?_ ?_, fun j hj => ?_, fun _ => hout⟩
      · rintro ⟨i, hi⟩
        exact absurd hi (by rw [hnone i]; simp)
      · rintro ⟨i, hi⟩
        exact absurd (hout.1.symm.trans hi) (by simp)
      · exact absurd (hout.1.symm.trans hj) (by simp)
  · have hR : ∀ w ∈ ws, ready w.1 w.2.1 = fun i => decide (i ∈ S) := by
      intro w hw
      funext i
      rw [Bool.eq_iff_iff, hws w hw i, decide_eq_true_iff]
    refine ⟨_, serve_eq hR last ?_, ?_⟩
    · rw [hlen, slot_cycle.length_queue]
    · rw [hlen]
      exact slot_cycle.grants_all S (cursor last)

theorem available_serves_two_slots :
    let w : Slots × Net × Client :=
      (fun i => { Client.zero with port := 1, cpcb := some i.val, p := if i.val < 2 then [⟨20, [1], 1, 1, 1⟩] else [] },
        ⟨fun _ => some ⟨1, .established, .null, none, none, none, none, false, false, 0, 0⟩, []⟩, .zero)
    ∃ slots : List Slot, (serve [w, w] 200).map EthernetClient.cs = slots.map .slot ∧ slots.Nodup ∧
      ∀ i, i ∈ slots ↔ i ∈ ({0, 1} : Finset Slot) := by
  intro w
  apply available_sound_complete_fair.2.2 {0, 1} [w, w] 200 rfl
  decide

end EthernetServer

end LogoCore.Ethernet
