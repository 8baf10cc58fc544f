import LogoCore.ByteStream

namespace LogoCore.Ethernet

namespace Conn

variable {pcb : PcbPtr} {c : Conn} {q : List (UInt8 × Option ℕ)}

structure Survives (c c' : Conn) : Prop where
  available : c'.available = c.available
  bytes : ∀ n, (c'.readLoop n).1 = (c.readLoop n).1
  connected : ∀ n, 0 < (c'.readLoop n).2.available → (c'.readLoop n).2.connected = true

theorem connected_of_available (hs : c.stale = false) (h : 0 < c.available) : c.connected = true := by
  have ha : c.available ≠ 0 := by omega
  simp [connected, hs, ha]

theorem fin_slot (hc : c.cs.cpcb = some pcb) {i : Slot} (hi : c.self.cs = .slot i) (err : Err) :
    ∃ n, (c.step pcb (.fin err)).2 =
      { c.setCs { c.cs with read := 0, port := 0, p := [], cpcb := none } with net := n } := by
  simp only [cs, hi] at hc
  simp only [step, deliver, hi, EthernetServer.doRecv, ↓reduceIte, EthernetServer.doClose, hc, ne_eq,
    not_true_eq_false, cs, setCs]
  exact ⟨_, rfl⟩

theorem fin_own (hi : c.self.cs = .own) (err : Err) :
    (c.step pcb (.fin err)).2 = ({ c with net := c.net.receiveFin pcb } : Conn).setConnected false := by
  simp [step, deliver, hi, doRecv]

theorem Represents.fin_own (h : Represents pcb c q) (hi : c.self.cs = .own) (err : Err) :
    Represents pcb (c.step pcb (.fin err)).2 q := by
  rw [Conn.fin_own hi]
  exact ⟨h.current, h.cpcb, h.holds⟩

theorem Represents.survives_own (h : Represents pcb c q) (hi : c.self.cs = .own) (err : Err) :
    Survives c (c.step pcb (.fin err)).2 := by
  have h' := h.fin_own hi err
  refine ⟨?_, fun n => ?_, fun n hn => ?_⟩
  · rw [h'.available_eq, h.available_eq]
  · rw [(h'.readLoop_eq n).1, (h.readLoop_eq n).1]
  · exact connected_of_available (h'.readLoop_eq n).2.1.current hn

theorem readLoop_of_empty (h : c.available = 0) (n : ℕ) : c.readLoop n = ([], c) := by
  cases n with
  | zero => rfl
  | succ n => simp [readLoop, read, readLocked, h]

theorem Represents.survives_slot_iff (h : Represents pcb c q) {i : Slot} (hi : c.self.cs = .slot i) (err : Err) :
    Survives c (c.step pcb (.fin err)).2 ↔ c.available = 0 := by
  have hempty : (c.step pcb (.fin err)).2.available = 0 := by
    obtain ⟨n, hstep⟩ := fin_slot h.cpcb hi err
    have hcs : (c.step pcb (.fin err)).2.cs.p = [] := by
      rw [hstep]
      change (c.setCs _).cs.p = []
      rw [cs_setCs]
    simp [Conn.available, hcs]
  constructor
  · intro hs
    rw [← hs.available, hempty]
  · intro ha
    refine ⟨by rw [hempty, ha], fun n => ?_, fun n hn => ?_⟩
    · rw [readLoop_of_empty hempty, readLoop_of_empty ha]
    · rw [readLoop_of_empty hempty, hempty] at hn
      exact absurd hn (by decide)

end Conn

theorem fin_keeps_unread_iff (pcb : PcbPtr) (c : Conn) (hc : c.Fresh pcb) (es : List ConnEvent)
    (hl : (readMachine pcb).Legal (.start c) es) (err : Err) :
    let d := ((readMachine pcb).run (.start c) es).conn
    (∀ i, d.self.cs = .slot i → (d.Survives (d.step pcb (.fin err)).2 ↔ d.available = 0)) ∧
      (d.self.cs = .own → d.Survives (d.step pcb (.fin err)).2) := by
  intro d
  have h := (Session.follows_run (Session.follows_start hc.represents) hl).queue
  exact ⟨fun i hi => h.survives_slot_iff hi err, fun hi => h.survives_own hi err⟩

/-- An accepted connection whose byte was read, and an outbound one with its byte unread at the FIN. -/
theorem fin_keeps_unread_all_read :
    let d := ((readMachine 7).run (.start .accepted) [.recv [⟨20, [1], 1, 1, 1⟩], .call .read]).conn
    let o := ((readMachine 7).run (.start .opened) [.recv [⟨20, [1], 1, 1, 1⟩]]).conn
    d.Survives (d.step 7 (.fin .ok)).2 ∧ o.available = 1 ∧ o.Survives (o.step 7 (.fin .ok)).2 := by
  intro d o
  have hd := fin_keeps_unread_iff 7 .accepted Conn.accepted_fresh [.recv [⟨20, [1], 1, 1, 1⟩], .call .read]
    (by decide) .ok
  have ho := fin_keeps_unread_iff 7 .opened Conn.opened_fresh [.recv [⟨20, [1], 1, 1, 1⟩]] (by decide) .ok
  exact ⟨(hd.1 0 rfl).mpr (by decide), by decide, ho.2 rfl⟩

theorem fin_discards_unread :
    let d := ((readMachine 7).run (.start .accepted) [.recv [⟨20, [1], 1, 1, 1⟩]]).conn
    (readMachine 7).Legal (.start .accepted) [.recv [⟨20, [1], 1, 1, 1⟩]] ∧ d.read.1 = 1 ∧
      (d.step 7 (.fin .ok)).2.read.1 = -1 ∧ ¬ d.Survives (d.step 7 (.fin .ok)).2 := by
  intro d
  refine ⟨by decide, by decide, by decide, fun h => ?_⟩
  exact absurd h.available (by decide)

end LogoCore.Ethernet
