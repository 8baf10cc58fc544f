import LogoCore.UdpQueue

namespace LogoCore.Ethernet

inductive PacketField where
  | p
  | remoteIP
  | remotePort
  | destIP
deriving DecidableEq, Repr

/-- Where the sketch stands in `parsePacket`: outside it, or before the load or store that comes next. What
was loaded and is still to be used is kept with the point. -/
inductive ParsePoint where
  | idle
  | test
  | index (f : PacketField)
  | field (f : PacketField) (front : ℕ)
  | load
  | store (count : ℕ)
  | loadFront
  | storeFront (front : ℕ)
  | testFront
  | resetFront
  | result
deriving DecidableEq, Repr

/-- `accepted` are the datagrams that `do_recv` put in the queue, `taken` those that `parsePacket`
returned. -/
structure Parser where
  udp : EthernetUDP
  point : ParsePoint
  accepted : List Packet
  taken : List Packet

inductive ParseEvent where
  | call
  | advance
  | recv (pkt : Packet)
deriving DecidableEq, Repr

namespace EthernetUDP

def current (u : EthernetUDP) : Packet := ⟨u.p, u.remoteIP, u.remotePort, u.destIP⟩

def copyField (u : EthernetUDP) (pkt : Packet) : PacketField → EthernetUDP
  | .p => { u with p := pkt.p }
  | .remoteIP => { u with remoteIP := pkt.remoteIP }
  | .remotePort => { u with remotePort := pkt.remotePort }
  | .destIP => { u with destIP := pkt.destIP }

end EthernetUDP

def ParsePoint.loaded : ParsePoint → Option ℕ
  | .store count => some count
  | .idle | .test | .index _ | .field _ _ | .load | .loadFront | .storeFront _ | .testFront | .resetFront | .result =>
    none

def PacketField.next : PacketField → ParsePoint
  | .p => .index .remoteIP
  | .remoteIP => .index .remotePort
  | .remotePort => .index .destIP
  | .destIP => .load

namespace Parser

def start : Parser := ⟨.zero, .idle, [], []⟩

def advance (x : Parser) : Parser :=
  match x.point with
  | .idle => x
  | .test => { x with point := if x.udp.count = 0 then .idle else .index .p }
  | .index f => { x with point := .field f x.udp.front }
  | .field f front => { x with udp := x.udp.copyField (x.udp.packets front) f, point := f.next }
  | .load => { x with point := .store x.udp.count }
  | .store count => { x with udp := { x.udp with count := count - 1 }, point := .loadFront }
  | .loadFront => { x with point := .storeFront x.udp.front }
  | .storeFront front => { x with udp := { x.udp with front := front + 1 }, point := .testFront }
  | .testFront => { x with point := if x.udp.front = udpRxMaxPackets then .resetFront else .result }
  | .resetFront => { x with udp := { x.udp with front := 0 }, point := .result }
  | .result => { x with point := .idle, taken := x.taken ++ [x.udp.current] }

def step (x : Parser) : ParseEvent → Parser
  | .call => { x with udp := x.udp.discard, point := .test }
  | .advance => x.advance
  | .recv pkt =>
    { x with
      udp := x.udp.doRecv pkt
      accepted := if x.udp.count ≥ udpRxMaxPackets then x.accepted else x.accepted ++ [pkt] }

def Enabled (x : Parser) : ParseEvent → Prop
  | .call => x.point = .idle
  | .advance | .recv _ => True

instance (x : Parser) : (e : ParseEvent) → Decidable (x.Enabled e)
  | .call => inferInstanceAs (Decidable (x.point = .idle))
  | .advance | .recv _ => isTrue trivial

/-- No datagram is accepted between the load and the store of `count--`. -/
def Undisturbed (x : Parser) : ParseEvent → Prop
  | .recv _ => x.point.loaded = none ∨ x.udp.count ≥ udpRxMaxPackets
  | .call | .advance => True

instance (x : Parser) : (e : ParseEvent) → Decidable (x.Undisturbed e)
  | .recv _ => inferInstanceAs (Decidable (_ ∨ _))
  | .call | .advance => isTrue trivial

end Parser

def parseMachine : Machine Parser ParseEvent := ⟨Parser.Enabled, Parser.step⟩

instance (x : Parser) (e : ParseEvent) : Decidable (parseMachine.enabled x e) :=
  inferInstanceAs (Decidable (x.Enabled e))

def parseCall : List ParseEvent := .call :: List.replicate 16 .advance

def parseCalls : ℕ → List ParseEvent
  | 0 => []
  | n + 1 => parseCall ++ parseCalls n

namespace Parser

/-- What holds between calls: `count` is the number of datagrams accepted and not taken, they are what the
queue holds, and as many calls return each of them once. -/
structure Consistent (x : Parser) : Prop where
  count : x.udp.count + x.taken.length = x.accepted.length
  fifo : x.taken ++ x.udp.queued = x.accepted
  drain : (parseMachine.run x (parseCalls x.udp.count)).taken = x.accepted

variable {x : Parser} {pkt : Packet}

theorem ring_discard (u : EthernetUDP) : u.discard.ring = u.ring := by
  unfold EthernetUDP.discard
  split_ifs <;> rfl

theorem run_idle (h : x.point = .idle) (n : ℕ) : parseMachine.run x (List.replicate n .advance) = x := by
  have hstay : x.advance = x := by rw [advance, h]
  induction n with
  | zero => rfl
  | succ n ih =>
    rw [List.replicate_succ, Machine.run_cons]
    exact (congrArg (parseMachine.run · _) hstay).trans ih

theorem run_testFront (u : EthernetUDP) (accepted taken : List Packet) :
    parseMachine.run ⟨u, .testFront, accepted, taken⟩ (List.replicate 3 .advance) =
      ⟨{ u with front := RingBuffer.wrap udpRxMaxPackets u.front }, .idle, accepted, taken ++ [u.current]⟩ := by
  unfold RingBuffer.wrap
  split_ifs with hf
  · simp only [List.replicate, Machine.run_cons, Machine.run_nil, parseMachine, step, advance, hf, ↓reduceIte]
    rfl
  · simp only [List.replicate, Machine.run_cons, Machine.run_nil, parseMachine, step, advance, hf, ↓reduceIte]

theorem run_index (u : EthernetUDP) (accepted taken : List Packet) :
    parseMachine.run ⟨u, .index .p, accepted, taken⟩ (List.replicate 12 .advance) =
      ⟨{ u with
          p := (u.packets u.front).p
          remoteIP := (u.packets u.front).remoteIP
          remotePort := (u.packets u.front).remotePort
          destIP := (u.packets u.front).destIP
          count := u.count - 1
          front := u.front + 1 },
        .testFront, accepted, taken⟩ := by
  simp only [List.replicate, Machine.run_cons, Machine.run_nil, parseMachine, step, advance, EthernetUDP.copyField,
    PacketField.next]

theorem run_parseCall (h : x.point = .idle) :
    parseMachine.run x parseCall =
      { x with
        udp := x.udp.parsePacket.2
        taken := if x.udp.count = 0 then x.taken else x.taken ++ [x.udp.packets x.udp.front] } := by
  obtain ⟨udp, point, accepted, taken⟩ := x
  obtain rfl : point = .idle := h
  have hfront : udp.discard.front = udp.front := congrArg RingBuffer.front (ring_discard udp)
  have hpackets : udp.discard.packets = udp.packets := congrArg RingBuffer.cells (ring_discard udp)
  have hcount : udp.discard.count = udp.count := congrArg RingBuffer.count (ring_discard udp)
  have hsplit : parseCall = .call :: .advance :: (List.replicate 12 .advance ++ List.replicate 3 .advance) := rfl
  have htest : parseMachine.step (parseMachine.step ⟨udp, .idle, accepted, taken⟩ .call) .advance =
      ⟨udp.discard, if udp.discard.count = 0 then .idle else .index .p, accepted, taken⟩ := rfl
  rw [hsplit, Machine.run_cons, Machine.run_cons, Machine.run_append, htest]
  by_cases hc : udp.count = 0
  · rw [if_pos (hcount.trans hc), run_idle rfl, run_idle rfl]
    simp only [EthernetUDP.parsePacket, hcount, hc, ↓reduceIte]
  · rw [if_neg (hcount ▸ hc), run_index, run_testFront]
    simp only [EthernetUDP.parsePacket, hcount, hc, ↓reduceIte, hfront, hpackets]
    rfl

theorem count_discard (u : EthernetUDP) : u.discard.count = u.count :=
  congrArg RingBuffer.count (ring_discard u)

end Parser

end LogoCore.Ethernet
