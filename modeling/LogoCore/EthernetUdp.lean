import LogoCore.EventMachine
import LogoCore.ReceiveQueue
import LogoCore.RingBuffer

namespace LogoCore.Ethernet

abbrev udpRxMaxPackets : ℕ := 32

def ipaddrNone : UInt32 := 0xFFFFFFFF

structure Packet where
  p : Chain
  remoteIP : UInt32
  remotePort : UInt16
  destIP : UInt32
deriving DecidableEq, Repr

/-- The receive side of `EthernetUDP`; `freed` records what `pbuf_free` deallocated. -/
structure EthernetUDP where
  packets : ℕ → Packet
  front : ℕ
  rear : ℕ
  count : ℕ
  p : Chain
  remoteIP : UInt32
  remotePort : UInt16
  destIP : UInt32
  read : ℕ
  freed : List ℕ

namespace EthernetUDP

def zero : EthernetUDP := ⟨fun _ => ⟨[], 0, 0, 0⟩, 0, 0, 0, [], 0, 0, 0, 0, []⟩

def doRecv (u : EthernetUDP) (pkt : Packet) : EthernetUDP :=
  if u.count ≥ udpRxMaxPackets then { u with freed := u.freed ++ (pbufFree pkt.p).1 }
  else { u with
    count := u.count + 1
    packets := Function.update u.packets u.rear pkt
    rear := if u.rear + 1 = udpRxMaxPackets then 0 else u.rear + 1 }

def available (u : EthernetUDP) : ℤ := if u.p = [] then 0 else (Chain.totLen u.p : ℤ) - u.read

/-- `parsePacket` up to the test of `count`. -/
def discard (u : EthernetUDP) : EthernetUDP :=
  if u.p = [] then { u with read := 0 }
  else { u with
    read := 0
    freed := u.freed ++ (pbufFree u.p).1
    p := []
    remotePort := 0
    remoteIP := ipaddrNone
    destIP := ipaddrNone }

def parsePacket (u : EthernetUDP) : ℤ × EthernetUDP :=
  if u.discard.count = 0 then (0, u.discard)
  else
    let pkt := u.packets u.front
    (Chain.totLen pkt.p, { u.discard with
      p := pkt.p
      remoteIP := pkt.remoteIP
      remotePort := pkt.remotePort
      destIP := pkt.destIP
      count := u.count - 1
      front := if u.front + 1 = udpRxMaxPackets then 0 else u.front + 1 })

def readByte (u : EthernetUDP) : ℤ × EthernetUDP :=
  if u.available = 0 then (-1, u)
  else match u.p with
    | [] => (-1, u)
    | p :: next =>
      let b := p.load u.read
      let read := (u.read + 1) % 65536
      if read = p.len ∧ next ≠ [] then
        let advanced := advanceHead p next
        (b.toNat, { u with read := 0, p := advanced.2, freed := u.freed ++ advanced.1 })
      else if read = p.len then
        (b.toNat, { u with read := 0, p := [], freed := u.freed ++ (pbufFree [p]).1 })
      else (b.toNat, { u with read := read })

def readLoop : ℕ → EthernetUDP → List UInt8 × EthernetUDP
  | 0, u => ([], u)
  | left + 1, u =>
    if u.readByte.1 = -1 then ([], u.readByte.2)
    else
      let (bs, u') := readLoop left u.readByte.2
      (UInt8.ofNat u.readByte.1.toNat :: bs, u')

def readBuf (u : EthernetUDP) (len : ℕ) : (ℤ × List UInt8) × EthernetUDP :=
  if u.available % 65536 = 0 then ((-1, []), u)
  else (((u.readLoop len).1.length % 65536, (u.readLoop len).1), (u.readLoop len).2)

def peek (u : EthernetUDP) : ℤ :=
  if u.available = 0 then -1 else ((u.p.head?.elim 0 fun p => p.load u.read).toNat : ℕ)

def flush (u : EthernetUDP) : EthernetUDP :=
  if u.available ≠ 0 then { u with read := Chain.totLen u.p } else u

def ring (u : EthernetUDP) : RingBuffer Packet := ⟨u.packets, u.front, u.rear, u.count⟩

def queued (u : EthernetUDP) : List Packet := u.ring.toList udpRxMaxPackets

end EthernetUDP

inductive UdpEvent where
  | recv (pkt : Packet)
  | parsePacket
  | read
  | readBuf (len : ℕ)
  | peek
  | available
  | flush

/-- The object with the datagrams that arrived, those that had room, those that `parsePacket` presented,
the one it presented last, what was read of it, and whether it was flushed. -/
structure UdpSession where
  udp : EthernetUDP
  arrived : List Packet
  accepted : List Packet
  presented : List Packet
  current : Option Packet
  returned : List UInt8
  flushed : Bool

namespace UdpSession

def start : UdpSession := ⟨.zero, [], [], [], none, [], false⟩

def step (s : UdpSession) : UdpEvent → UdpSession
  | .recv pkt =>
    { s with
      udp := s.udp.doRecv pkt
      arrived := s.arrived ++ [pkt]
      accepted := if s.accepted.length < s.presented.length + udpRxMaxPackets then s.accepted ++ [pkt]
        else s.accepted }
  | .parsePacket =>
    let r := s.udp.parsePacket
    let shown : List Packet := if r.1 = 0 then [] else [⟨r.2.p, r.2.remoteIP, r.2.remotePort, r.2.destIP⟩]
    { s with
      udp := r.2
      presented := s.presented ++ shown
      current := shown.head?
      returned := []
      flushed := false }
  | .read =>
    { s with
      udp := s.udp.readByte.2
      returned := s.returned ++ if s.udp.readByte.1 = -1 then [] else [UInt8.ofNat s.udp.readByte.1.toNat] }
  | .readBuf len =>
    { s with udp := (s.udp.readBuf len).2, returned := s.returned ++ (s.udp.readBuf len).1.2 }
  | .peek | .available => s
  | .flush => { s with udp := s.udp.flush, flushed := true }

/-- Datagrams are chains of non-empty pbufs. -/
def Enabled (_ : UdpSession) : UdpEvent → Prop
  | .recv pkt => pkt.p ≠ [] ∧ Chain.WellFormed pkt.p ∧ Chain.totLen pkt.p < 65536
  | _ => True

instance (s : UdpSession) : (e : UdpEvent) → Decidable (s.Enabled e)
  | .recv _ => inferInstanceAs (Decidable (_ ∧ _ ∧ _))
  | .parsePacket | .read | .readBuf _ | .peek | .available | .flush => isTrue trivial

end UdpSession

def udpMachine : Machine UdpSession UdpEvent := ⟨UdpSession.Enabled, UdpSession.step⟩

instance (s : UdpSession) (e : UdpEvent) : Decidable (udpMachine.enabled s e) :=
  inferInstanceAs (Decidable (s.Enabled e))

end LogoCore.Ethernet
