import LogoCore.EthernetServer
import LogoCore.EventMachine

namespace LogoCore.Ethernet

/-- An `EthernetClient` whose `cs` points at its own `client_state`. -/
structure SelfOwned where
  state : Client
  connected : Bool
deriving DecidableEq

namespace SelfOwned

def conn (o : SelfOwned) (n : Net) : Conn := ⟨⟨o.state, o.connected, .own, 0⟩, fun _ => .zero, n⟩

def ofConn (c : Conn) : SelfOwned := ⟨c.self.clientState, c.self.connected⟩

/-- `EthernetClient()` on storage that holds `mem`. -/
def new (mem : Client) : SelfOwned := ⟨{ mem with mode := true, cpcb := none, p := [], generation := 0 }, false⟩

end SelfOwned

namespace Conn

/-- `connect` up to the wait loop; `pcb` is what `tcp_new` returns and `res` what `tcp_connect` returns. -/
def connectBegin (c : Conn) (this : ObjId) (pcb : Option PcbPtr) (port : UInt16) (res : Err) : Conn :=
  let c := c.setCs { c.cs with cpcb := pcb, read := 0, p := [] }
  match pcb with
  | none => c
  | some p =>
    let n := (((c.net.tcpNew p).tcpArg p (.client this)).tcpRecv p (some .clientDoRecv)).tcpErr p
      (some .clientDoErr)
    { c with net := n.tcpConnect p port res }

/-- `tcp_close(cs->cpcb); cs->cpcb = NULL;`, as `connect` gives up. -/
def abandon (c : Conn) (fin : Err) : Conn :=
  match c.cs.cpcb with
  | none => c
  | some pcb => { c.setCs { c.cs with cpcb := none } with net := (c.net.tcpClose pcb fin).2 }

/-- `tcp_poll(cs->cpcb, do_poll, 10);`, the end of a successful `connect`. -/
def startPolling (c : Conn) : Conn :=
  { c with net := c.cs.cpcb.elim c.net fun pcb => c.net.tcpPoll pcb (some .clientDoPoll) }

end Conn

/-- Where the sketch stands: outside the library, at a point of `connect`, or in a call that works on its
own copy of `cs->cpcb`. -/
inductive Task where
  | idle
  | waiting (k : ObjId)
  | timingOut (k : ObjId)
  | checking (k : ObjId)
  | failing (k : ObjId)
  | polling (k : ObjId)
  | returning (k : ObjId)
  | status (k : ObjId) (cpcb : PcbPtr)
  | availableForWrite (k : ObjId) (cpcb : PcbPtr)
  | write (k : ObjId) (cpcb : PcbPtr) (buf : List UInt8) (i : ℕ) (stuffed : Bool)
deriving DecidableEq

/-- `result` is what the last `connect` that returned gave back. -/
structure Outbound where
  objs : ObjId → Option SelfOwned
  net : Net
  task : Task
  result : Option (ObjId × Bool)

inductive OutEvent where
  | construct (k : ObjId) (mem : Client)
  | copy (k k' : ObjId)
  | destroy (k : ObjId)
  | connect (k : ObjId) (pcb : Option PcbPtr) (port : UInt16) (res : Err)
  | call (k : ObjId) (op : ClientOp)
  | status (k : ObjId)
  | availableForWrite (k : ObjId)
  | write (k : ObjId) (buf : List UInt8)
  | advance (late : Bool) (freed : TcpState) (err : Err)
  | connected (p : PcbPtr)
  | data (p : PcbPtr) (c : Chain)
  | fin (p : PcbPtr)
  | error (p : PcbPtr)
  | poll (p : PcbPtr) (expired : Bool) (err : Err)
  | progress (p : PcbPtr) (state : TcpState) (refused : Bool) (rcvWnd sndBuf : ℕ)
  | reap (p : PcbPtr)

/-- The member functions that use `cs->cpcb` only with interrupts off, or not at all. -/
def ClientOp.guarded : ClientOp → Bool
  | .available | .port | .read | .peek | .flush | .stop _ => true
  | _ => false

/-- The states that a control block takes once `tcp_close` has succeeded. -/
def TcpState.isClosing : TcpState → Bool
  | .finWait1 | .finWait2 | .closing | .lastAck | .timeWait => true
  | _ => false

namespace Outbound

def initial : Outbound := ⟨fun _ => none, ⟨fun _ => none, []⟩, .idle, none⟩

def held (x : Outbound) (k : ObjId) : Option PcbPtr := (x.objs k).bind fun o => o.state.cpcb

def isConnected (x : Outbound) (k : ObjId) : Bool := (x.objs k).elim false SelfOwned.connected

def apply (x : Outbound) (k : ObjId) (f : Conn → Conn) : Outbound :=
  match x.objs k with
  | none => x
  | some o =>
    let c := f (o.conn x.net)
    { x with objs := Function.update x.objs k (some (.ofConn c)), net := c.net }

/-- A callback of lwIP, which passes on `callback_arg`. -/
def deliver (x : Outbound) (arg : CallbackArg) (f : Conn → Conn) : Outbound :=
  match arg with
  | .client k => x.apply k f
  | _ => x

def setNet (x : Outbound) (n : Net) : Outbound := { x with net := n }

def leave (x : Outbound) (k : ObjId) (b : Bool) : Outbound := { x with task := .idle, result := some (k, b) }

/-- A call that takes a copy of `cs->cpcb` first and returns if that is null. -/
def load (x : Outbound) (k : ObjId) (task : PcbPtr → Task) : Outbound :=
  { x with task := (x.held k).elim .idle task }

def advance (x : Outbound) (late : Bool) (freed : TcpState) (err : Err) : Outbound :=
  match x.task with
  | .idle => x
  | .waiting k =>
    if x.isConnected k then { x with task := .checking k }
    else if late then { x with task := .timingOut k } else x
  | .timingOut k => (x.apply k fun c => c.abandon err).leave k false
  | .checking k =>
    let state := ((x.held k).bind x.net.pcbs).elim freed Pcb.state
    if state ≠ .established then { x with task := .failing k } else { x with task := .polling k }
  | .failing k => (x.apply k fun c => (c.setConnected false).abandon err).leave k false
  | .polling k => { x.apply k Conn.startPolling with task := .returning k }
  | .returning k => x.leave k (x.isConnected k)
  | .status _ _ => { x with task := .idle }
  | .availableForWrite _ _ => { x with task := .idle }
  | .write k cpcb buf i stuffed =>
    if i < buf.length then
      let inc := if buf.length - i < 1024 then buf.length - i else 1024
      let n := x.net.tcpWrite cpcb ((buf.drop i).take inc) err
      if err ≠ .mem then { x with net := n, task := .write k cpcb buf (i + inc) false }
      else if !stuffed then { x with net := n.tcpOutput cpcb, task := .write k cpcb buf i true }
      else { x with net := n }
    else { x with net := if stuffed then x.net else x.net.tcpOutput cpcb, task := .idle }

/-- lwIP passes the poll callback its argument. `do_poll` reads through it unchecked, so that a null argument or that of
a destroyed object makes it undefined what follows; such a call leaves the state here as it is. -/
def poll (x : Outbound) (p : PcbPtr) (b : Pcb) (expired : Bool) (err : Err) : Outbound :=
  if b.poll = some .clientDoPoll then x.deliver b.callbackArg fun c => c.doPoll p expired err
  else if b.poll = some .closeRetryPoll then
    let (res, n) := x.net.tcpClose p err
    x.setNet (if res = .ok then n else n.tcpPoll p (some .closeRetryPoll))
  else x

def step (x : Outbound) : OutEvent → Outbound
  | .construct k mem => { x with objs := Function.update x.objs k (some (.new mem)) }
  | .copy k k' => { x with objs := Function.update x.objs k' (x.objs k) }
  | .destroy k => { x with objs := Function.update x.objs k none }
  | .connect k pcb port res =>
    let y := x.apply k fun c => c.connectBegin k pcb port res
    if pcb = none ∨ res ≠ .ok then y.leave k false else { y with task := .waiting k }
  | .call k op => x.apply k fun c => (c.perform op).2
  | .status k => x.load k (.status k)
  | .availableForWrite k => x.load k (.availableForWrite k)
  | .write k buf => x.load k (.write k · buf 0 false)
  | .advance late freed err => x.advance late freed err
  | .connected p =>
    (x.net.pcbs p).elim x fun b =>
      (x.setNet (x.net.modify p fun b => { b with state := .established })).deliver b.callbackArg Conn.doConnected
  | .data p c =>
    (x.net.pcbs p).elim x fun b =>
      let y := x.setNet (x.net.receive p (Chain.totLen c))
      if b.recv = some .clientDoRecv then y.deliver b.callbackArg fun d => d.doRecv c else y
  | .fin p =>
    (x.net.pcbs p).elim x fun b =>
      let y := x.setNet (x.net.receiveFin p)
      if b.recv = some .clientDoRecv then y.deliver b.callbackArg fun d => d.doRecv [] else y
  | .error p =>
    (x.net.pcbs p).elim x fun b =>
      let y := if b.errf = some .clientDoErr then x.deliver b.callbackArg Conn.doErr else x
      y.setNet (y.net.free p)
  | .poll p expired err => (x.net.pcbs p).elim x fun b => x.poll p b expired err
  | .progress p state refused rcvWnd sndBuf =>
    x.setNet (x.net.modify p fun b =>
      { b with state := state, refusedData := refused, rcvWnd := rcvWnd, sndBuf := sndBuf })
  | .reap p => x.setNet (x.net.free p)

/-- The sketch does one thing at a time. lwIP hands out free control blocks, calls back for control blocks
in use, silently frees only those that were closed, and never opens one again that was closed. -/
def Enabled (x : Outbound) : OutEvent → Prop
  | .construct k _ => x.task = .idle ∧ x.objs k = none
  | .copy k _ | .destroy k | .status k | .availableForWrite k | .write k _ => x.task = .idle ∧ (x.objs k).isSome
  | .connect k pcb _ _ => x.task = .idle ∧ (x.objs k).isSome ∧ ∀ p ∈ pcb, x.net.pcbs p = none
  | .call k op => x.task = .idle ∧ (x.objs k).isSome ∧ op.guarded
  | .advance _ _ _ => True
  | .connected p => ∃ b ∈ x.net.pcbs p, b.state = .synSent
  | .data p c => (x.net.pcbs p).isSome ∧ c ≠ []
  | .fin p | .error p | .poll p _ _ => (x.net.pcbs p).isSome
  | .progress p state _ _ _ => ∃ b ∈ x.net.pcbs p, state = b.state ∨ b.state.isClosing ∧ state.isClosing
  | .reap p => ∃ b ∈ x.net.pcbs p, b.rxClosed

end Outbound

def outboundMachine : Machine Outbound OutEvent := ⟨Outbound.Enabled, Outbound.step⟩

def connectTrace : List OutEvent :=
  [.construct 0 .zero, .connect 0 (some 7) 80 .ok, .connected 7, .advance false .closed .ok,
    .advance false .closed .ok, .advance false .closed .ok, .advance false .closed .ok]

theorem connectTrace_legal : outboundMachine.Legal .initial connectTrace :=
  ⟨⟨rfl, rfl⟩, ⟨rfl, rfl, fun _ _ => rfl⟩, ⟨_, rfl, rfl⟩, trivial, trivial, trivial, trivial, trivial⟩

end LogoCore.Ethernet
