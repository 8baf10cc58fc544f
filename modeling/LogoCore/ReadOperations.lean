import LogoCore.ReceiveQueue

namespace LogoCore.Ethernet

namespace Conn

structure Represents (pcb : PcbPtr) (c : Conn) (q : List (UInt8 × Option ℕ)) : Prop where
  current : c.stale = false
  cpcb : c.cs.cpcb = some pcb
  holds : c.cs.Holds q

theorem stale_setCs (c : Conn) (s : Client) (h : s.generation = c.cs.generation) :
    (c.setCs s).stale = c.stale := by
  simp [stale, h]

variable {pcb : PcbPtr} {c : Conn} {q : List (UInt8 × Option ℕ)}

theorem represents_setCs (s : Client) (hcur : c.stale = false) (hg : s.generation = c.cs.generation)
    (hc : s.cpcb = some pcb) (hs : s.Holds q) (n : Net) : Represents pcb { c.setCs s with net := n } q := by
  have hcs : ({ c.setCs s with net := n } : Conn).cs = s := cs_setCs c s
  exact ⟨(stale_setCs c s hg).trans hcur, by rw [hcs, hc], by rwa [hcs]⟩

theorem Fresh.represents (h : Fresh pcb c) : Represents pcb c [] := by
  refine ⟨h.current, h.cpcb, ?_, ?_, ?_, ?_, ?_⟩ <;> simp [h.p, h.read, Chain.WellFormed, Chain.totLen]

namespace Represents

theorem available_eq (h : Represents pcb c q) : c.available = q.length := by
  have hl := h.holds.length_eq
  unfold available
  rw [if_neg (by simp [h.current])]
  split_ifs with hp
  · simp [h.holds.eq_nil_iff.mpr hp]
  · omega

theorem available_eq_zero_iff (h : Represents pcb c q) : c.available = 0 ↔ q = [] := by
  rw [h.available_eq]
  simp

theorem queued_eq (h : Represents pcb c q) : c.queued = Chain.totLen c.cs.p := by
  unfold queued
  split_ifs with ha
  · rw [h.holds.eq_nil_iff.mp (h.available_eq_zero_iff.mp ha)]
    rfl
  · rfl

theorem unread_eq (h : Represents pcb c q) : c.unread = q.map Prod.fst := by
  rw [h.holds.queue, List.map_drop, Chain.map_fst_items]
  rfl

theorem peek_eq (h : Represents pcb c q) : c.peek = (q.head?.map fun x => (x.1.toNat : ℤ)).getD (-1) := by
  cases q with
  | nil => simp [peek, h.available_eq]
  | cons x q =>
    obtain ⟨p, next, hp, rfl, -⟩ := h.holds.exists_head
    have ha : c.available ≠ 0 := by simp [h.available_eq_zero_iff]
    simp [peek, ha, hp]

theorem read_nil (h : Represents pcb c []) : c.read = (-1, c) := by
  simp [read, readLocked, h.available_eq]

theorem read_cons {x : UInt8 × Option ℕ} (h : Represents pcb c (x :: q)) :
    c.read.1 = x.1.toNat ∧ Represents pcb c.read.2 q ∧ c.read.2.net.freed = c.net.freed ++ x.2.toList ∧
      c.read.2.net.credited pcb = c.net.credited pcb + (c.cs.read + 1) := by
  have ha : c.available ≠ 0 := by simp [h.available_eq_zero_iff]
  obtain ⟨r, p, hq, hbyte, hcs, hfreed, hcred⟩ := h.holds.takeByte c.net
  have hr : c.read = ((x.1.toNat : ℤ),
      { c.setCs { c.cs with read := r, p := p } with net := (takeByte c.cs c.net).2.2 }) := by
    simp only [read, readLocked, ha, ↓reduceIte, hbyte, hcs]
  rw [hr]
  exact ⟨rfl, represents_setCs { c.cs with read := r, p := p } h.current rfl h.cpcb hq _, hfreed, hcred pcb h.cpcb⟩

theorem readLoop_eq (h : Represents pcb c q) (n : ℕ) :
    (c.readLoop n).1 = (q.take n).map Prod.fst ∧ Represents pcb (c.readLoop n).2 (q.drop n) ∧
      (c.readLoop n).2.net.freed = c.net.freed ++ (q.take n).filterMap Prod.snd := by
  induction n generalizing c q with
  | zero => exact ⟨rfl, h, by simp [readLoop]⟩
  | succ n ih =>
    cases q with
    | nil =>
      have hr : c.readLoop (n + 1) = ([], c) := by simp [readLoop, h.read_nil]
      rw [hr]
      exact ⟨by simp, h, by simp⟩
    | cons x q =>
      obtain ⟨hbyte, hrep, hfreed, -⟩ := h.read_cons
      obtain ⟨hbs, hrep', hfreed'⟩ := ih hrep
      have hne : ¬ ((x.1.toNat : ℤ) = -1) := by omega
      have hr : c.readLoop (n + 1) = (x.1 :: (c.read.2.readLoop n).1, (c.read.2.readLoop n).2) := by
        simp [readLoop, hbyte, hne]
      rw [hr]
      refine ⟨by simp [hbs], by simpa using hrep', ?_⟩
      rw [hfreed', hfreed, List.take_succ_cons, List.append_assoc]
      obtain ⟨b, tag⟩ := x
      cases tag <;> rfl

theorem readBuf_eq (h : Represents pcb c q) (size : ℕ) :
    (c.readBuf size).1 = (if q = [] then -1 else ((min size q.length : ℕ) : ℤ), (q.take size).map Prod.fst) ∧
      Represents pcb (c.readBuf size).2 (q.drop size) ∧
      (c.readBuf size).2.net.freed = c.net.freed ++ (q.take size).filterMap Prod.snd := by
  by_cases hq : q = []
  · have hr : c.readBuf size = ((-1, []), c) := by simp [readBuf, h.available_eq, hq]
    rw [hr]
    subst hq
    exact ⟨by simp, by simpa using h, by simp⟩
  · obtain ⟨hbs, hrep, hfreed⟩ := h.readLoop_eq size
    have hlt : q.length < 65536 := by
      have := h.holds.length_eq
      have := h.holds.bound
      omega
    have hpos : 0 < q.length := List.length_pos_iff.mpr hq
    have ha : ¬ c.available ≤ 0 := by
      rw [h.available_eq]
      omega
    have hlen : ((c.readLoop size).1.length : ℤ) % 65536 = ((min size q.length : ℕ) : ℤ) := by
      rw [hbs, List.length_map, List.length_take]
      omega
    simp only [readBuf, ha, ↓reduceIte, hlen, hq]
    exact ⟨by rw [hbs], hrep, hfreed⟩

end Represents

theorem deliver_recv (hc : c.cs.cpcb = some pcb) {d : Chain} (hd : d ≠ []) (err : Err) :
    ∃ n, c.deliver pcb d err =
        { c.setCs { c.cs with p := if c.cs.p = [] then d else pbufCat c.cs.p d } with net := n } ∧
      n.freed = c.net.freed ∧ n.credited pcb = c.net.credited pcb := by
  cases hp : c.self.cs with
  | own =>
    simp only [deliver, hp, doRecv, hd, ↓reduceIte]
    by_cases h : c.cs.p = []
    · simp only [h, ne_eq, not_true_eq_false, ↓reduceIte]
      exact ⟨c.net, by simp [setCs, hp], rfl, rfl⟩
    · simp only [h, ne_eq, not_false_eq_true, ↓reduceIte]
      exact ⟨_, rfl, by simp [Call.freed], by simp [Call.credit]⟩
  | slot i =>
    simp only [cs, hp] at hc
    simp only [deliver, hp, EthernetServer.doRecv, hd, ↓reduceIte, hc, ne_eq, not_true_eq_false, cs, setCs]
    split_ifs with h
    · exact ⟨_, rfl, rfl, rfl⟩
    · exact ⟨_, rfl, by simp [Call.freed], by simp [Call.credit]⟩

theorem recv_spec (hc : c.cs.cpcb = some pcb) {d : Chain} (hd : d ≠ []) :
    let c' := (c.step pcb (.recv d)).2
    c'.cs = { c.cs with p := if c.cs.p = [] then d else pbufCat c.cs.p d } ∧ c'.stale = c.stale ∧
      c'.net.freed = c.net.freed ∧ c'.net.credited pcb = c.net.credited pcb := by
  let b : Conn := { c with net := c.net.receive pcb (Chain.totLen d) }
  obtain ⟨n, hstep, hfreed, hcred⟩ := deliver_recv (c := b) hc hd .ok
  have hnext : (c.step pcb (.recv d)).2 = _ := hstep
  rw [hnext]
  exact ⟨cs_setCs b _, stale_setCs b { b.cs with p := if b.cs.p = [] then d else pbufCat b.cs.p d } rfl,
    hfreed, hcred⟩

theorem Represents.recv (h : Represents pcb c q) {d : Chain} (hd : d ≠ []) (hw : d.WellFormed)
    (hb : c.queued + Chain.totLen d < 65536) :
    Represents pcb (c.step pcb (.recv d)).2 (q ++ d.items) ∧
      (c.step pcb (.recv d)).2.net.freed = c.net.freed ∧
      (c.step pcb (.recv d)).2.net.credited pcb = c.net.credited pcb := by
  obtain ⟨hcs, hstale, hnet⟩ := recv_spec h.cpcb hd
  rw [h.queued_eq] at hb
  refine ⟨⟨hstale.trans h.current, ?_, ?_⟩, hnet⟩
  · rw [hcs]
    exact h.cpcb
  · rw [hcs]
    exact h.holds.append hd hw hb

end Conn

end LogoCore.Ethernet
