import LogoCore.Ledger
import LogoCore.OutboundClient
import LogoCore.SlotEffects

namespace LogoCore.Ethernet

def CallbackArg.owner : CallbackArg → Option ObjId
  | .client k => some k
  | _ => none

def Pcb.entry (b : Pcb) : Entry ObjId := ⟨b.callbackArg.owner, b.rxClosed⟩

namespace Net

def entries (n : Net) (p : PcbPtr) : Option (Entry ObjId) := (n.pcbs p).map Pcb.entry

theorem entries_eq_none {n : Net} {p : PcbPtr} : n.entries p = none ↔ n.pcbs p = none := by simp [entries]

theorem entries_quiet {n m : Net} (h : Quiet n m) : m.entries = n.entries := by
  funext p
  have hp := congrArg (Option.map fun t : Binding × Bool × Option Callback =>
    (⟨t.1.callbackArg.owner, t.2.1⟩ : Entry ObjId)) (h p)
  rw [Option.map_map, Option.map_map] at hp
  exact hp

theorem entries_modify (n : Net) (p : PcbPtr) (f : Pcb → Pcb) (hf : ∀ b, (f b).entry = b.entry) :
    (n.modify p f).entries = n.entries := by
  funext q
  by_cases hq : q = p
  · subst q
    cases h : n.pcbs p <;> simp [entries, modify, h, hf]
  · simp [entries, modify, hq]

theorem entries_free (n : Net) (p : PcbPtr) : (n.free p).entries = Function.update n.entries p none := by
  funext q
  by_cases hq : q = p
  · subst q; simp [entries, free]
  · simp [entries, free, hq]

theorem entries_tcpPoll (n : Net) (p : PcbPtr) (f : Option Callback) : (n.tcpPoll p f).entries = n.entries :=
  entries_modify n p _ fun _ => rfl

theorem entries_update (n : Net) (p : PcbPtr) (f : Pcb → Pcb) :
    (n.modify p f).entries = Function.update n.entries p ((n.pcbs p).map fun b => (f b).entry) := by
  funext q
  by_cases hq : q = p
  · subst q; simp [entries, modify, Function.comp_def]
  · simp [entries, modify, hq]

/-- What `tcp_close` leaves of the control block `b`, and what it returns then: the block is gone, it is
closing, or no FIN could be sent. -/
def Closes (n : Net) (p : PcbPtr) (b : Pcb) (fin : Err) (r : Err × Net) : Prop :=
  r.1 = .ok ∧ r.2.pcbs = Function.update n.pcbs p none ∨
    ∃ s, r.2.pcbs = Function.update n.pcbs p (some { b with rxClosed := true, state := s }) ∧
      (r.1 = .ok ∧ s.isClosing = true ∨ r.1 = fin ∧ fin ≠ .ok)

theorem closes_tcpClose {n : Net} {p : PcbPtr} {b : Pcb} (hb : n.pcbs p = some b) (fin : Err) :
    Closes n p b fin (n.tcpClose p fin) := by
  by_cases hl : b.state = .listen
  · refine .inl ?_
    simp [tcpClose, modify, record, free, hb, hl]
  set m : Net := (n.modify p fun b => if b.state = .listen then b else { b with rxClosed := true }).record
    (.tcpClose p) with hm
  have hpcbs : m.pcbs = Function.update n.pcbs p (some { b with rxClosed := true }) := by
    simp [hm, record, modify, hb, hl]
  have hp : m.pcbs p = some { b with rxClosed := true } := by rw [hpcbs, Function.update_self]
  have hfree : Closes n p b fin (.ok, m.free p) := .inl ⟨rfl, by simp [free, hpcbs]⟩
  have hmove (s : TcpState) (hs : s.isClosing = true) :
      Closes n p b fin (.ok, m.modify p fun b => { b with state := s }) :=
    .inr ⟨s, by simp [modify, hp, hpcbs], .inl ⟨rfl, hs⟩⟩
  have hfin (s : TcpState) (hs : s.isClosing = true) :
      Closes n p b fin (if fin = .ok then (.ok, m.modify p fun b => { b with state := s }) else (fin, m)) := by
    split_ifs with h
    · exact hmove s hs
    · exact .inr ⟨b.state, hpcbs, .inr ⟨rfl, h⟩⟩
  unfold tcpClose
  simp only [← hm, hp]
  split
  · split
    · exact hmove .timeWait rfl
    · exact hfree
  · split
    · exact hfree
    · exact hfree
    · exact hfree
    · exact hfin .finWait1 rfl
    · exact hfin .finWait1 rfl
    · exact hfin .lastAck rfl
    · refine .inr ⟨b.state, hpcbs, .inl ⟨rfl, ?_⟩⟩
      cases hs : b.state <;> simp_all [TcpState.isClosing]
theorem entries_tcpClose (n : Net) (p : PcbPtr) (fin : Err) :
    ∃ e, (n.tcpClose p fin).2.entries = Function.update n.entries p e ∧ Ledger.Shut (n.entries p) e := by
  have hupdate {m : Net} {o : Option Pcb} (h : m.pcbs = Function.update n.pcbs p o) :
      m.entries = Function.update n.entries p (o.map Pcb.entry) := by
    funext q
    by_cases hq : q = p
    · subst q; simp [entries, h]
    · simp [entries, h, hq]
  cases hb : n.pcbs p with
  | none => exact ⟨none, hupdate (o := none) (by simp [tcpClose, modify, record, hb]), by simp [Ledger.Shut]⟩
  | some b =>
    obtain ⟨-, h⟩ | ⟨s, h, -⟩ := closes_tcpClose hb fin
    · exact ⟨none, hupdate (o := none) h, by simp [Ledger.Shut]⟩
    · refine ⟨_, hupdate h, ?_⟩
      simp [Ledger.Shut, Pcb.entry, entries, hb]

theorem entries_detach (n : Net) (p : PcbPtr) :
    ((((n.tcpArg p .null).tcpRecv p none).tcpSent p none).tcpErr p none).entries =
      Function.update n.entries p ((n.entries p).map fun a => ⟨none, a.closed⟩) := by
  have hrecv (m : Net) : (m.tcpRecv p none).entries = m.entries := entries_modify m p _ fun _ => rfl
  have hsent (m : Net) : (m.tcpSent p none).entries = m.entries := entries_modify m p _ fun _ => rfl
  have herr (m : Net) : (m.tcpErr p none).entries = m.entries := entries_modify m p _ fun _ => rfl
  rw [herr, hsent, hrecv]
  refine (entries_update n p _).trans ?_
  rw [entries, Option.map_map]
  rfl

theorem entries_closing (n : Net) (p : PcbPtr) (q : Chain) (fin : Err) :
    ∃ e,
      (let n := if q = [] then n else (n.tcpRecved p (Chain.totLen q)).pbufFree q
       let (err, n) := n.tcpClose p fin
       if err = .ok then n else n.tcpPoll p (some .closeRetryPoll) : Net).entries = Function.update n.entries p e ∧
      Ledger.Shut (n.entries p) e := by
  have hdata : (if q = [] then n else (n.tcpRecved p (Chain.totLen q)).pbufFree q).entries = n.entries := by
    split_ifs
    · rfl
    · exact entries_quiet (quiet_tcpRecved n p _)
  generalize (if q = [] then n else (n.tcpRecved p (Chain.totLen q)).pbufFree q) = m at hdata ⊢
  obtain ⟨e, he, hs⟩ := entries_tcpClose m p fin
  rw [hdata] at he hs
  refine ⟨e, ?_, hs⟩
  dsimp only
  split_ifs
  · exact he
  · rw [entries_tcpPoll, he]

end Net

namespace SelfOwned

@[simp] theorem conn_cs (o : SelfOwned) (n : Net) : (o.conn n).cs = o.state := rfl

@[simp] theorem conn_net (o : SelfOwned) (n : Net) : (o.conn n).net = n := rfl

@[simp] theorem conn_connected (o : SelfOwned) (n : Net) : (o.conn n).self.connected = o.connected := rfl

@[simp] theorem conn_stale (o : SelfOwned) (n : Net) : (o.conn n).stale = false := rfl

end SelfOwned

namespace Conn

/-- A member function that neither changes `cs->cpcb` nor opens or closes a control block. -/
def Leaves (f : Conn → Conn) : Prop :=
  ∀ (o : SelfOwned) (n : Net), (f (o.conn n)).self.clientState.cpcb = o.state.cpcb ∧
    (f (o.conn n)).net.entries = n.entries

theorem leaves_doConnected : Leaves doConnected := fun _ _ => ⟨rfl, rfl⟩

theorem leaves_doErr : Leaves doErr := by
  intro o n
  unfold doErr
  split_ifs <;> exact ⟨rfl, rfl⟩

theorem leaves_doRecv (q : Chain) : Leaves fun c => c.doRecv q := by
  intro o n
  dsimp only
  unfold doRecv
  split_ifs <;> exact ⟨rfl, rfl⟩

theorem leaves_startPolling : Leaves startPolling := by
  intro o n
  refine ⟨rfl, ?_⟩
  simp only [startPolling, SelfOwned.conn_cs, SelfOwned.conn_net]
  cases o.state.cpcb with
  | none => rfl
  | some p => exact Net.entries_tcpPoll n p _

theorem leaves_read : Leaves fun c => c.read.2 := by
  intro o n
  refine ⟨?_, Net.entries_quiet (keeps_read (o.conn n)).net⟩
  obtain ⟨r, q, hs, -, -⟩ := takeByte_keeps o.state n
  simp only [read, readLocked]
  split_ifs
  · rfl
  · simp only [SelfOwned.conn_cs, SelfOwned.conn_net, hs]
    rfl

theorem leaves_flush : Leaves flush := by
  intro o n
  refine ⟨?_, Net.entries_quiet (keeps_flush (o.conn n)).net⟩
  unfold flush
  split_ifs
  · dsimp only
    split <;> rfl
  · rfl

/-- A member function that closes what `cs->cpcb` names and forgets it. -/
def Closes (f : Conn → Conn) : Prop :=
  ∀ (o : SelfOwned) (n : Net), (f (o.conn n)).self.clientState.cpcb = none ∧
    match o.state.cpcb with
    | none => (f (o.conn n)).net.entries = n.entries
    | some p => ∃ e, (f (o.conn n)).net.entries = Function.update n.entries p e ∧ Ledger.Shut (n.entries p) e

theorem closes_abandon (fin : Err) : Closes fun c => c.abandon fin := by
  intro o n
  obtain ⟨⟨port, p, cpcb, connected, read, mode, generation, claimed⟩, _⟩ := o
  cases cpcb with
  | none => exact ⟨rfl, rfl⟩
  | some pcb => exact ⟨rfl, Net.entries_tcpClose n pcb fin⟩

theorem closes_fail (fin : Err) : Closes fun c => (c.setConnected false).abandon fin :=
  fun o n => closes_abandon fin { o with connected := false } n

theorem closes_stop (fin : Err) : Closes fun c => c.stop fin := by
  intro o n
  obtain ⟨⟨port, p, cpcb, connected, read, mode, generation, claimed⟩, _⟩ := o
  cases cpcb with
  | none => exact ⟨rfl, rfl⟩
  | some pcb =>
    obtain ⟨e, he, hs⟩ :=
      Net.entries_closing ((((n.tcpArg pcb .null).tcpRecv pcb none).tcpSent pcb none).tcpErr pcb none) pcb p fin
    rw [Net.entries_detach, Function.update_idem] at he
    rw [Net.entries_detach, Function.update_self] at hs
    refine ⟨rfl, e, he, fun b hb => ?_⟩
    obtain ⟨hclosed, a, ha, ho⟩ := hs b hb
    obtain ⟨a', ha', rfl⟩ := Option.mem_map.mp ha
    exact ⟨hclosed, a', ha', .inr (ho.elim id id)⟩

theorem forget_cases (c : Conn) (hc : c.self.cs = .own) (p : PcbPtr) :
    (c.forget p).net = c.net ∧ (c.forget p).self.clientState.cpcb =
      if c.self.clientState.cpcb = some p then none else c.self.clientState.cpcb := by
  have hcs : c.cs = c.self.clientState := by rw [cs, hc]
  unfold forget
  rw [hcs]
  split_ifs
  · rw [setCs, hc]
    exact ⟨rfl, rfl⟩
  · exact ⟨rfl, rfl⟩

theorem doPoll_cases (o : SelfOwned) (n : Net) (p : PcbPtr) (expired : Bool) (fin : Err) :
    (o.conn n).doPoll p expired fin = o.conn n ∨
      ∃ e, ((o.conn n).doPoll p expired fin).net.entries = Function.update n.entries p e ∧
        Ledger.Shut (n.entries p) e ∧
        ((o.conn n).doPoll p expired fin).self.clientState.cpcb =
          if o.state.cpcb = some p then none else o.state.cpcb := by
  by_cases hconn : (o.conn n).self.connected = true
  · cases expired with
    | false => exact .inl (by rw [doPoll, if_pos hconn]; rfl)
    | true =>
      set c : Conn := { o.conn n with net := ((o.conn n).net.tcpPoll p none).tcpAbort p } with hc
      have herr : c.doErr = c.setConnected false := if_pos hconn
      have hpoll : (o.conn n).doPoll p true fin = (c.setConnected false).forget p := by
        rw [doPoll, if_pos hconn, if_pos rfl, ← hc, herr]
      obtain ⟨hnet, hcpcb⟩ := forget_cases (c.setConnected false) rfl p
      refine .inr ⟨none, ?_, by simp [Ledger.Shut], hpoll ▸ hcpcb⟩
      rw [hpoll, hnet]
      exact (Net.entries_free _ p).trans (by rw [Net.entries_tcpPoll, SelfOwned.conn_net])
  · obtain ⟨e, he, hs⟩ := Net.entries_tcpClose n p fin
    set m : Net := if (n.tcpClose p fin).1 = .ok then (n.tcpClose p fin).2
      else (n.tcpClose p fin).2.tcpPoll p (some .clientDoPoll) with hm
    have hpoll : (o.conn n).doPoll p expired fin = forget { o.conn n with net := m } p := by
      rw [doPoll, if_neg hconn]
      rfl
    obtain ⟨hnet, hcpcb⟩ := forget_cases { o.conn n with net := m } rfl p
    have hentries : m.entries = (n.tcpClose p fin).2.entries := by
      rw [hm]
      split_ifs
      · rfl
      · exact Net.entries_tcpPoll _ p _
    refine .inr ⟨e, ?_, hs, hpoll ▸ hcpcb⟩
    rw [hpoll, hnet, ← he]
    exact hentries

end Conn

end LogoCore.Ethernet
