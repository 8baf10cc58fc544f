import LogoCore.TcpControlBlock

namespace LogoCore.Ethernet

/-- `struct client`. A null `p` is the empty chain. -/
structure Client where
  port : UInt16
  p : Chain
  cpcb : Option PcbPtr
  connected : Bool
  read : ℕ
  mode : Bool
  generation : UInt16
  claimed : Bool
deriving DecidableEq, Repr

def Client.zero : Client := ⟨0, [], none, false, 0, false, 0, false⟩

/-- Where `cs` points: the object's own `client_state` or a server slot. -/
inductive ClientPtr where
  | own
  | slot (i : Slot)
deriving DecidableEq, Repr

/-- An `EthernetClient` object. Since `cs` is relative to the object, `copyFrom` copies the value. -/
structure EthernetClient where
  clientState : Client
  connected : Bool
  cs : ClientPtr
  generation : UInt16
deriving DecidableEq, Repr

abbrev Slots := Slot → Client

structure Conn where
  self : EthernetClient
  clients : Slots
  net : Net

namespace Conn

def cs (c : Conn) : Client :=
  match c.self.cs with
  | .own => c.self.clientState
  | .slot i => c.clients i

def setCs (c : Conn) (s : Client) : Conn :=
  match c.self.cs with
  | .own => { c with self := { c.self with clientState := s } }
  | .slot i => { c with clients := Function.update c.clients i s }

@[simp] theorem setCs_net (c : Conn) (s : Client) : (c.setCs s).net = c.net := by
  unfold setCs; split <;> rfl

@[simp] theorem setCs_ptr (c : Conn) (s : Client) : (c.setCs s).self.cs = c.self.cs := by
  unfold setCs; split <;> simp_all

@[simp] theorem setCs_generation (c : Conn) (s : Client) :
    (c.setCs s).self.generation = c.self.generation := by
  unfold setCs; split <;> rfl

@[simp] theorem cs_setCs (c : Conn) (s : Client) : (c.setCs s).cs = s := by
  unfold cs setCs
  cases h : c.self.cs <;> simp [h]

def stale (c : Conn) : Bool := decide (c.self.cs ≠ .own) && decide (c.cs.generation ≠ c.self.generation)

def setConnected (c : Conn) (b : Bool) : Conn := { c with self := { c.self with connected := b } }

def available (c : Conn) : ℤ :=
  if c.stale then 0
  else if c.cs.p = [] then 0
  else (Chain.totLen c.cs.p : ℤ) - c.cs.read

def availableForWrite (c : Conn) : ℤ :=
  if c.stale then 0
  else match c.cs.cpcb with
    | none => 0
    | some pcb => ((c.net.pcbs pcb).elim 0 Pcb.sndBuf : ℕ)

def port (c : Conn) : ℤ := if c.stale then 0 else c.cs.port.toNat

def status (c : Conn) : TcpState :=
  if c.stale then .closed
  else match c.cs.cpcb with
    | none => .closed
    | some pcb => (c.net.pcbs pcb).elim .closed Pcb.state

def connected (c : Conn) : Bool :=
  if c.stale then false
  else if c.self.cs ≠ .own then decide (c.available ≠ 0) || decide (c.status = .established)
  else decide (c.available ≠ 0) || decide (c.status = .established) || c.self.connected

def toBool (c : Conn) : Bool := decide (c.status = .established)

end Conn

/-- The head of the chain is dropped: `cs->p = cs->p->next; pbuf_ref(cs->p); pbuf_free(q)`. -/
def advanceHead (p : Pbuf) (next : Chain) : List ℕ × Chain :=
  let freed := pbufFree (p :: pbufRef next)
  (freed.1, if freed.1 = [] then pbufRef next else freed.2)

def takeByte (cs : Client) (net : Net) : UInt8 × Client × Net :=
  match cs.p with
  | [] => (0, cs, net)
  | p :: next =>
    let b := p.load cs.read
    let read := (cs.read + 1) % 65536
    let net := cs.cpcb.elim net fun pcb => net.tcpRecved pcb read
    if read = p.len ∧ next ≠ [] then
      let advanced := advanceHead p next
      (b, { cs with read := 0, p := advanced.2 },
        (net.record (.pbufRef ((next.map Pbuf.addr).headD 0))).record (.pbufFree advanced.1))
    else if read = p.len then (b, { cs with read := 0, p := [] }, net.pbufFree [p])
    else (b, { cs with read := read }, net)

namespace Conn

def readLocked (c : Conn) : ℤ × Conn :=
  if c.available = 0 then (-1, c)
  else
    let (b, s, n) := takeByte c.cs c.net
    (b.toNat, { c.setCs s with net := n })

def read (c : Conn) : ℤ × Conn := c.readLocked

def readLoop : ℕ → Conn → List UInt8 × Conn
  | 0, c => ([], c)
  | left + 1, c =>
    let (b, c') := c.read
    if b = -1 then ([], c')
    else
      let (bs, c'') := readLoop left c'
      (UInt8.ofNat b.toNat :: bs, c'')

def readBuf (c : Conn) (size : ℕ) : (ℤ × List UInt8) × Conn :=
  if c.available ≤ 0 then ((-1, []), c)
  else
    let (bs, c') := c.readLoop size
    ((bs.length % 65536, bs), c')

def peek (c : Conn) : ℤ :=
  if c.available = 0 then -1
  else ((c.cs.p.head?.elim 0 fun p => p.load c.cs.read).toNat : ℕ)

def flush (c : Conn) : Conn :=
  if c.available ≠ 0 then
    let c := c.setCs { c.cs with read := Chain.totLen c.cs.p }
    match c.cs.cpcb with
    | none => { c with net := c.net.record (.tcpRecved none 0) }
    | some pcb => { c with net := c.net.tcpRecved pcb 0 }
  else c

/-- The loop of `write` from index `i`. `outcomes` are what the successive `tcp_write` calls return;
when they run out the call is still waiting for buffer space. -/
def writeLoop (pcb : PcbPtr) (buf : List UInt8) : List Err → ℕ → Bool → Net → Option Bool × Net
  | [], i, stuffed, n => if i < buf.length then (none, n) else (some stuffed, n)
  | err :: outcomes, i, stuffed, n =>
    if i < buf.length then
      let inc := if buf.length - i < 1024 then buf.length - i else 1024
      let n := n.tcpWrite pcb ((buf.drop i).take inc) err
      if err ≠ .mem then writeLoop pcb buf outcomes (i + inc) false n
      else if !stuffed then writeLoop pcb buf outcomes i true (n.tcpOutput pcb)
      else writeLoop pcb buf outcomes i stuffed n
    else (some stuffed, n)

def write (c : Conn) (buf : List UInt8) (outcomes : List Err) : Option ℕ × Conn :=
  if c.stale then (some 0, c)
  else match c.cs.cpcb with
    | none => (some 0, c)
    | some pcb =>
      match writeLoop pcb buf outcomes 0 false c.net with
      | (none, n) => (none, { c with net := n })
      | (some stuffed, n) => (some buf.length, { c with net := if stuffed then n else n.tcpOutput pcb })

def stop (c : Conn) (fin : Err) : Conn :=
  if c.stale then c.setConnected false
  else
    let cpcb := c.cs.cpcb
    let p := c.cs.p
    let c := (c.setCs { c.cs with cpcb := none, p := [], port := 0 }).setConnected false
    match cpcb with
    | none => c
    | some pcb =>
      let n := (((c.net.tcpArg pcb .null).tcpRecv pcb none).tcpSent pcb none).tcpErr pcb none
      let n := if p = [] then n else (n.tcpRecved pcb (Chain.totLen p)).pbufFree p
      let (err, n) := n.tcpClose pcb fin
      { c with net := if err = .ok then n else n.tcpPoll pcb (some .closeRetryPoll) }

/-- `EthernetClient::do_recv`, the receive callback of an outbound connection. -/
def doRecv (c : Conn) (p : Chain) : Conn :=
  if p = [] then c.setConnected false
  else if c.cs.p ≠ [] then
    { c.setCs { c.cs with p := pbufCat c.cs.p p } with
      net := c.net.record (.pbufCat ((c.cs.p.map Pbuf.addr).headD 0) ((p.map Pbuf.addr).headD 0)) }
  else c.setCs { c.cs with p := p }

/-- `EthernetClient::do_err`: it ends a connection, or ends the wait of `connect`. -/
def doErr (c : Conn) : Conn := if c.self.connected then c.setConnected false else c.setConnected true

def doConnected (c : Conn) : Conn := c.setConnected true

/-- The end of `do_poll`: the object forgets the control block if it still refers to it. -/
def forget (c : Conn) (pcb : PcbPtr) : Conn :=
  if c.cs.cpcb = some pcb then c.setCs { c.cs with port := 0, cpcb := none } else c

/-- `EthernetClient::do_poll`; `expired` says whether the keep-alive count is used up. `tcp_abort` calls
the error callback. -/
def doPoll (c : Conn) (pcb : PcbPtr) (expired : Bool) (fin : Err) : Conn :=
  if c.self.connected then
    if expired then
      (doErr { c with net := (c.net.tcpPoll pcb none).tcpAbort pcb }).forget pcb
    else c
  else
    let (err, n) := c.net.tcpClose pcb fin
    forget { c with net := if err = .ok then n else n.tcpPoll pcb (some .clientDoPoll) } pcb

end Conn

end LogoCore.Ethernet
