import LogoCore.EthernetClient

namespace LogoCore.Ethernet

structure EthernetServer where
  clients : Slots
  generation : UInt16
  lastClient : Slot

namespace EthernetServer

def fresh (generation : UInt16) : EthernetServer := ⟨fun _ => .zero, generation, 0⟩

def doPoll (net : Net) (pcb : PcbPtr) (fin : Err) : Err × Net :=
  let (err, net) := net.tcpClose pcb fin
  (err, if err = .ok then net else net.tcpPoll pcb (some .doPoll))

def doClose (clients : Slots) (net : Net) (arg : CallbackArg) (pcb : PcbPtr) (fin : Err) :
    Slots × Net :=
  let net := ((((net.tcpArg pcb .null).tcpRecv pcb none).tcpErr pcb none).tcpPoll pcb none).tcpSent
    pcb none
  match arg with
  | .slot i =>
    let cs := clients i
    if cs.cpcb ≠ some pcb then (clients, net)
    else
      let net := if cs.p = [] then net else (net.tcpRecved pcb (Chain.totLen cs.p)).pbufFree cs.p
      let (err, net) := net.tcpClose pcb fin
      (Function.update clients i { cs with read := 0, port := 0, p := [], cpcb := none },
        if err = .ok then net else net.tcpPoll pcb (some .doPoll))
  | _ => (clients, net)

def doRecv (clients : Slots) (net : Net) (arg : CallbackArg) (pcb : PcbPtr) (p : Chain) (fin : Err) :
    Err × Slots × Net :=
  if p = [] then (.ok, doClose clients net arg pcb fin)
  else match arg with
    | .slot i =>
      let cs := clients i
      if cs.cpcb ≠ some pcb then (.mem, clients, net)
      else if cs.p ≠ [] then
        (.ok, Function.update clients i { cs with p := pbufCat cs.p p },
          net.record (.pbufCat ((cs.p.map Pbuf.addr).headD 0) ((p.map Pbuf.addr).headD 0)))
      else (.ok, Function.update clients i { cs with p := p }, net)
    | _ => (.mem, clients, net)

def doErr (clients : Slots) (net : Net) : CallbackArg → Slots × Net
  | .slot i =>
    let cs := clients i
    (Function.update clients i
        { cs with cpcb := none, port := 0, read := 0, connected := false, p := [] },
      if cs.p = [] then net else net.pbufFree cs.p)
  | _ => (clients, net)

def nextGeneration (g : UInt16) : UInt16 := if g + 1 = 0 then 1 else g + 1

def freeSlot (clients : Slots) : Option Slot :=
  (List.finRange maxClients).find? fun i => (clients i).port = 0

def doAccept (s : EthernetServer) (net : Net) (pcb : PcbPtr) : Err × EthernetServer × Net :=
  match freeSlot s.clients with
  | none => (.mem, s, net)
  | some i =>
    let g := nextGeneration s.generation
    let cs := { Client.zero with
      generation := g, cpcb := some pcb, port := (net.pcbs pcb).elim 0 Pcb.remotePort }
    (.ok, { s with clients := Function.update s.clients i cs, generation := g },
      (((net.tcpArg pcb (.slot i)).tcpRecv pcb (some .doRecv)).tcpSent pcb (some .didSent)).tcpErr pcb
        (some .doErr))

/-- `EthernetClient(struct client *c)` on storage that holds `mem`. -/
def handle (clients : Slots) (mem : Client) : Option Slot → EthernetClient × Slots
  | none => (⟨{ mem with cpcb := none, p := [], generation := 0 }, false, .own, 0⟩, clients)
  | some i => (⟨mem, true, .slot i, (clients i).generation⟩,
      Function.update clients i { clients i with mode := false })

def established (clients : Slots) (net : Net) (i : Slot) : Bool :=
  match (clients i).cpcb with
  | none => false
  | some pcb => (net.pcbs pcb).elim false fun b => b.state = .established

def ready (clients : Slots) (net : Net) (i : Slot) : Bool :=
  decide ((clients i).port ≠ 0) && established clients net i && decide ((clients i).p ≠ []) &&
    decide (Chain.totLen (clients i).p > (clients i).read)

def scan (clients : Slots) (net : Net) : ℕ → Slot → Slot × Option Slot
  | 0, last => (last, none)
  | left + 1, last =>
    if ready clients net (last + 1) then (last + 1, some (last + 1))
    else scan clients net left (last + 1)

def available (s : EthernetServer) (net : Net) (mem : Client) : EthernetClient × EthernetServer :=
  let (last, found) := scan s.clients net maxClients s.lastClient
  let (e, clients) := handle s.clients mem found
  (e, { s with clients := clients, lastClient := last })

def unclaimed (clients : Slots) (net : Net) : Option Slot :=
  (List.finRange maxClients).find? fun i =>
    !decide ((clients i).port = 0) && !(clients i).claimed && established clients net i

def accept (s : EthernetServer) (net : Net) (mem : Client) : EthernetClient × EthernetServer :=
  match unclaimed s.clients net with
  | none => (((handle s.clients mem none).1), s)
  | some i =>
    let clients := Function.update s.clients i { s.clients i with claimed := true }
    let (e, clients) := handle clients mem (some i)
    (e, { s with clients := clients })

def writeSlots (buf : List UInt8) (outcomes : Slot → List Err) :
    List Slot → ℕ → Slots → Net → Option ℕ × Slots × Net
  | [], n, clients, net => (some n, clients, net)
  | i :: is, n, clients, net =>
    if (clients i).port ≠ 0 ∧ established clients net i then
      let (e, clients) := handle clients .zero (some i)
      match Conn.write ⟨e, clients, net⟩ buf (outcomes i) with
      | (none, c) => (none, c.clients, c.net)
      | (some m, c) => writeSlots buf outcomes is (n + m) c.clients c.net
    else writeSlots buf outcomes is n clients net

def write (s : EthernetServer) (net : Net) (buf : List UInt8) (outcomes : Slot → List Err) :
    Option ℕ × Slots × Net :=
  writeSlots buf outcomes (List.finRange maxClients) 0 s.clients net

end EthernetServer

inductive ClientOp where
  | available
  | availableForWrite
  | port
  | read
  | readBuf (size : ℕ)
  | peek
  | write (b : UInt8) (outcomes : List Err)
  | writeBuf (buf : List UInt8) (outcomes : List Err)
  | flush
  | connected
  | status
  | toBool
  | stop (fin : Err)

inductive Value where
  | int (z : ℤ)
  | buf (z : ℤ) (stored : List UInt8)
  | size (n : Option ℕ)
  | bool (b : Bool)
  | state (s : TcpState)
  | unit
deriving DecidableEq, Repr

def Conn.perform (c : Conn) : ClientOp → Value × Conn
  | .available => (.int c.available, c)
  | .availableForWrite => (.int c.availableForWrite, c)
  | .port => (.int c.port, c)
  | .read => (.int c.read.1, c.read.2)
  | .readBuf size => (.buf (c.readBuf size).1.1 (c.readBuf size).1.2, (c.readBuf size).2)
  | .peek => (.int c.peek, c)
  | .write b outcomes => (.size (c.write [b] outcomes).1, (c.write [b] outcomes).2)
  | .writeBuf buf outcomes => (.size (c.write buf outcomes).1, (c.write buf outcomes).2)
  | .flush => (.unit, c.flush)
  | .connected => (.bool c.connected, c)
  | .status => (.state c.status, c)
  | .toBool => (.bool c.toBool, c)
  | .stop fin => (.unit, c.stop fin)

end LogoCore.Ethernet
