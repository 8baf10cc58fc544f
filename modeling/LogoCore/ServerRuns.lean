import LogoCore.EthernetServer
import LogoCore.EventMachine

namespace LogoCore.Ethernet

structure World where
  server : EthernetServer
  objs : ObjId → Option EthernetClient
  net : Net

inductive Event where
  | accept (p : PcbPtr) (port : UInt16)
  | data (p : PcbPtr) (c : Chain)
  | fin (p : PcbPtr) (err : Err)
  | error (p : PcbPtr)
  | poll (p : PcbPtr) (err : Err)
  | progress (p : PcbPtr) (state : TcpState) (refused : Bool) (rcvWnd sndBuf : ℕ)
  | reap (p : PcbPtr)
  | serverAccept (h : ObjId) (mem : Client)
  | serverAvailable (h : ObjId) (mem : Client)
  | serverWrite (buf : List UInt8) (outcomes : Slot → List Err)
  | call (h : ObjId) (op : ClientOp)
  | copy (h h' : ObjId)
  | destroy (h : ObjId)

def acceptedPcb (port : UInt16) : Pcb :=
  ⟨port, .established, .server, some .tcpRecvNull, none, none, none, false, false, tcpWnd, tcpSndBuf⟩

namespace World

def initial (generation : UInt16) : World := ⟨.fresh generation, fun _ => none, ⟨fun _ => none, []⟩⟩

def setClients (w : World) (x : Slots × Net) : World :=
  { w with server := { w.server with clients := x.1 }, net := x.2 }

def conn (w : World) (e : EthernetClient) : Conn := ⟨e, w.server.clients, w.net⟩

def put (w : World) (h : ObjId) (c : Conn) : World :=
  { w.setClients (c.clients, c.net) with objs := Function.update w.objs h (some c.self) }

def accept (w : World) (p : PcbPtr) (port : UInt16) : World :=
  let net := { w.net with pcbs := Function.update w.net.pcbs p (some (acceptedPcb port)) }
  match w.server.doAccept net p with
  | (.ok, s, n) => { w with server := s, net := n }
  | (_, s, n) => { w with server := s, net := n.free p }

def data (w : World) (p : PcbPtr) (b : Pcb) (c : Chain) : World :=
  match EthernetServer.doRecv w.server.clients (w.net.receive p (Chain.totLen c)) b.callbackArg p c .ok with
  | (.ok, x) => w.setClients x
  | (_, x) => w.setClients (x.1, x.2.modify p fun b => { b with refusedData := true })

def fin (w : World) (p : PcbPtr) (b : Pcb) (err : Err) : World :=
  w.setClients (EthernetServer.doRecv w.server.clients (w.net.receiveFin p) b.callbackArg p [] err).2

def error (w : World) (p : PcbPtr) (b : Pcb) : World :=
  let x := EthernetServer.doErr w.server.clients w.net b.callbackArg
  w.setClients (x.1, x.2.free p)

def poll (w : World) (p : PcbPtr) (b : Pcb) (err : Err) : World :=
  if b.poll = some .doPoll then { w with net := (EthernetServer.doPoll w.net p err).2 }
  else if b.poll = some .closeRetryPoll then
    let (res, net) := w.net.tcpClose p err
    { w with net := if res = .ok then net else net.tcpPoll p (some .closeRetryPoll) }
  else w

def step (w : World) : Event → World
  | .accept p port => w.accept p port
  | .data p c => (w.net.pcbs p).elim w fun b => w.data p b c
  | .fin p err => (w.net.pcbs p).elim w fun b => w.fin p b err
  | .error p => (w.net.pcbs p).elim w fun b => w.error p b
  | .poll p err => (w.net.pcbs p).elim w fun b => w.poll p b err
  | .progress p state refused rcvWnd sndBuf =>
    { w with net := w.net.modify p fun b =>
      { b with state := state, refusedData := refused, rcvWnd := rcvWnd, sndBuf := sndBuf } }
  | .reap p => { w with net := w.net.free p }
  | .serverAccept h mem =>
    { w with server := (w.server.accept w.net mem).2
             objs := Function.update w.objs h (some (w.server.accept w.net mem).1) }
  | .serverAvailable h mem =>
    { w with server := (w.server.available w.net mem).2
             objs := Function.update w.objs h (some (w.server.available w.net mem).1) }
  | .serverWrite buf outcomes => w.setClients (w.server.write w.net buf outcomes).2
  | .call h op => (w.objs h).elim w fun e => w.put h ((w.conn e).perform op).2
  | .copy h h' => (w.objs h).elim w fun e => { w with objs := Function.update w.objs h' (some e) }
  | .destroy h => { w with objs := Function.update w.objs h none }

/-- lwIP creates a connection in a free control block, calls back for control blocks in use, and
silently frees only those that were closed. -/
def Enabled (w : World) : Event → Prop
  | .accept p _ => w.net.pcbs p = none
  | .data p c => (w.net.pcbs p).isSome ∧ c ≠ []
  | .fin p _ | .error p | .poll p _ | .progress p _ _ _ _ => (w.net.pcbs p).isSome
  | .reap p => ∃ b ∈ w.net.pcbs p, b.rxClosed
  | _ => True

end World

def serverMachine : Machine World Event := ⟨World.Enabled, World.step⟩

@[simp] theorem serverMachine_step (w : World) (e : Event) : serverMachine.step w e = w.step e := rfl

end LogoCore.Ethernet
