import LogoCore.ServerRuns

namespace LogoCore.Ethernet

inductive ConnEvent where
  | recv (q : Chain)
  | fin (err : Err)
  | call (op : ClientOp)

namespace Conn

def deliver (c : Conn) (pcb : PcbPtr) (q : Chain) (fin : Err) : Conn :=
  match c.self.cs with
  | .own => c.doRecv q
  | .slot i =>
    let r := EthernetServer.doRecv c.clients c.net (.slot i) pcb q fin
    { c with clients := r.2.1, net := r.2.2 }

def step (pcb : PcbPtr) (c : Conn) : ConnEvent → Value × Conn
  | .recv q => (.unit, deliver { c with net := c.net.receive pcb (Chain.totLen q) } pcb q .ok)
  | .fin err => (.unit, deliver { c with net := c.net.receiveFin pcb } pcb [] err)
  | .call op => c.perform op

/-- A connection that was just accepted into a slot or opened by `connect`. -/
structure Fresh (pcb : PcbPtr) (c : Conn) : Prop where
  current : c.stale = false
  cpcb : c.cs.cpcb = some pcb
  p : c.cs.p = []
  read : c.cs.read = 0

/-- Slot 0 right after `do_accept` put the connection of control block 7 there. -/
def accepted : Conn :=
  ⟨⟨.zero, true, .slot 0, 1⟩, fun _ => { Client.zero with port := 50000, cpcb := some 7, generation := 1 },
    ⟨fun _ => none, []⟩⟩

theorem accepted_fresh : Fresh 7 accepted := ⟨rfl, rfl, rfl, rfl⟩

/-- An object right after `connect` established the connection of control block 7. -/
def opened : Conn :=
  let b : Pcb := ⟨80, .established, .client 0, some .clientDoRecv, none, some .clientDoErr, some .clientDoPoll,
    false, false, tcpWnd, tcpSndBuf⟩
  ⟨⟨{ Client.zero with cpcb := some 7 }, true, .own, 0⟩, fun _ => .zero, ⟨fun p => if p = 7 then some b else none, []⟩⟩

theorem opened_fresh : Fresh 7 opened := ⟨rfl, rfl, rfl, rfl⟩

def unread (c : Conn) : List UInt8 := (Chain.bytes c.cs.p).drop c.cs.read

def queued (c : Conn) : ℕ := if c.available = 0 then 0 else Chain.totLen c.cs.p

end Conn

/-- A chain as `pbuf_alloc` makes it, with no empty pbuf. -/
def Chain.WellFormed : Chain → Prop
  | [] => True
  | p :: c => p.ref = 1 ∧ 0 < p.len ∧ p.len ≤ p.payload.length ∧ p.totLen = p.len + Chain.totLen c ∧
      Chain.WellFormed c

instance Chain.decidableWellFormed (c : Chain) : Decidable c.WellFormed :=
  match c with
  | [] => isTrue trivial
  | _ :: c => @instDecidableAnd _ _ _ (@instDecidableAnd _ _ _ (@instDecidableAnd _ _ _
      (@instDecidableAnd _ _ _ (decidableWellFormed c))))

/-- lwIP calls back while the connection is open, with chains whose lengths the 16-bit `tot_len` can
hold. -/
def Conn.Enabled (pcb : PcbPtr) (c : Conn) : ConnEvent → Prop
  | .recv q => c.cs.cpcb = some pcb ∧ q ≠ [] ∧ q.WellFormed ∧ c.queued + Chain.totLen q < 65536
  | .fin _ => c.cs.cpcb = some pcb
  | .call _ => True

instance (pcb : PcbPtr) (c : Conn) : (e : ConnEvent) → Decidable (c.Enabled pcb e)
  | .recv _ => inferInstanceAs (Decidable (_ ∧ _ ∧ _ ∧ _))
  | .fin _ => inferInstanceAs (Decidable (c.cs.cpcb = some pcb))
  | .call _ => inferInstanceAs (Decidable True)

def ConnEvent.chain : ConnEvent → Chain
  | .recv q => q
  | _ => []

def ConnEvent.returned : ConnEvent → Value → List UInt8
  | .call .read, .int z => if z = -1 then [] else [UInt8.ofNat z.toNat]
  | .call (.readBuf _), .buf _ stored => stored
  | _, _ => []

def ConnEvent.isReading : ConnEvent → Bool
  | .recv _ | .call .read | .call (.readBuf _) | .call .peek | .call .available => true
  | _ => false

structure Session where
  conn : Conn
  delivered : Chain
  returned : List UInt8

namespace Session

def start (c : Conn) : Session := ⟨c, [], []⟩

def step (pcb : PcbPtr) (s : Session) (e : ConnEvent) : Session :=
  ⟨(s.conn.step pcb e).2, s.delivered ++ e.chain, s.returned ++ e.returned (s.conn.step pcb e).1⟩

end Session

def readMachine (pcb : PcbPtr) : Machine Session ConnEvent :=
  ⟨fun s e => s.conn.Enabled pcb e ∧ e.isReading = true, Session.step pcb⟩

instance (pcb : PcbPtr) (s : Session) (e : ConnEvent) : Decidable ((readMachine pcb).enabled s e) :=
  inferInstanceAs (Decidable (_ ∧ _))

def ConnEvent.toEvent (pcb : PcbPtr) (k : ObjId) : ConnEvent → Event
  | .recv q => .data pcb q
  | .fin err => .fin pcb err
  | .call op => .call k op

theorem World.step_conn {w : World} {k : ObjId} {e : EthernetClient} {i : Slot} {pcb : PcbPtr} {b : Pcb}
    (hk : w.objs k = some e) (he : e.cs = .slot i) (hb : w.net.pcbs pcb = some b)
    (ha : b.callbackArg = .slot i) (hc : (w.server.clients i).cpcb = some pcb) (ev : ConnEvent)
    (hq : ev ≠ .recv []) :
    let c := ((w.conn e).step pcb ev).2
    let w' := w.step (ev.toEvent pcb k)
    w'.server.clients = c.clients ∧ w'.net = c.net ∧ w'.objs k = some c.self := by
  cases ev with
  | recv q =>
    have hne : q ≠ [] := fun h => hq (by rw [h])
    simp only [ConnEvent.toEvent, World.step, hb, Option.elim_some, World.data, EthernetServer.doRecv, hne,
      ↓reduceIte, ha, hc, ne_eq, not_true_eq_false, Conn.step, Conn.deliver, World.conn, he]
    split_ifs <;> exact ⟨rfl, rfl, hk⟩
  | fin err =>
    simp only [ConnEvent.toEvent, World.step, hb, Option.elim_some, World.fin, ha, Conn.step, Conn.deliver,
      World.conn, he]
    exact ⟨rfl, rfl, hk⟩
  | call op =>
    simp only [ConnEvent.toEvent, World.step, hk, Option.elim_some, World.put, Conn.step]
    exact ⟨rfl, rfl, by simp⟩

end LogoCore.Ethernet
