import LogoCore.EthernetUdp
import Mathlib.Data.List.Perm.Subperm

namespace LogoCore.Ethernet

theorem pbufFree_wellFormed {c : Chain} (h : c.WellFormed) : (pbufFree c).1 = c.map Pbuf.addr := by
  induction c with
  | nil => rfl
  | cons p c ih =>
    obtain ⟨href, -, -, -, hc⟩ := h
    rw [pbufFree_last (by simp [Pbuf.decRef, href]), List.map_cons, ih hc]

theorem Chain.WellFormed.totLen_pos {c : Chain} (h : c.WellFormed) (hne : c ≠ []) : 0 < Chain.totLen c := by
  cases c with
  | nil => exact absurd rfl hne
  | cons p c =>
    obtain ⟨-, hpos, -, htot, -⟩ := h
    rw [Chain.totLen_cons]
    omega

def Packet.addrs (pkt : Packet) : List ℕ := pkt.p.map Pbuf.addr

namespace EthernetUDP

variable {u : EthernetUDP} {q : List (UInt8 × Option ℕ)}

def asClient (u : EthernetUDP) : Client := { Client.zero with p := u.p, read := u.read }

def held (u : EthernetUDP) : List ℕ := u.freed ++ u.p.map Pbuf.addr

def Keeps (u v : EthernetUDP) : Prop :=
  v.ring = u.ring ∧ v.remoteIP = u.remoteIP ∧ v.remotePort = u.remotePort ∧ v.destIP = u.destIP

theorem Keeps.trans {v w : EthernetUDP} (h : Keeps u v) (h' : Keeps v w) : Keeps u w :=
  ⟨h'.1.trans h.1, h'.2.1.trans h.2.1, h'.2.2.1.trans h.2.2.1, h'.2.2.2.trans h.2.2.2⟩

theorem readByte_eq (ha : u.available ≠ 0) :
    let t := takeByte u.asClient ⟨fun _ => none, []⟩
    u.readByte = ((t.1.toNat : ℤ), { u with read := t.2.1.read, p := t.2.1.p, freed := u.freed ++ t.2.2.freed }) := by
  cases hp : u.p with
  | nil => simp [available, hp] at ha
  | cons p next =>
    have hfreed (n : Net) (hn : n.freed = []) (xs : List ℕ) : (n.record (.pbufFree xs)).freed = xs := by
      simp [Net.freed_record, hn, Call.freed]
    simp only [readByte, ha, ↓reduceIte, hp, takeByte, asClient, Client.zero, Option.elim_none]
    split_ifs
    · rw [hfreed _ rfl]
    · rw [Net.pbufFree, hfreed _ rfl]
    · rw [show (⟨fun _ => none, []⟩ : Net).freed = [] from rfl, List.append_nil]

theorem available_eq (h : u.asClient.Holds q) : u.available = q.length := by
  have hl := h.length_eq
  simp only [asClient] at hl
  unfold available
  split_ifs with hp
  · simp [h.eq_nil_iff.mpr hp]
  · omega

theorem readByte_nil (h : u.asClient.Holds []) : u.readByte = (-1, u) := by
  simp [readByte, available_eq h]

theorem readByte_cons {x : UInt8 × Option ℕ} (h : u.asClient.Holds (x :: q)) :
    u.readByte.1 = x.1.toNat ∧ u.readByte.2.asClient.Holds q ∧ u.readByte.2.held = u.held ∧
      Keeps u u.readByte.2 := by
  have ha : u.available ≠ 0 := by
    rw [available_eq h, List.length_cons]
    omega
  obtain ⟨r, p, hq, hbyte, hcs, hfreed, -⟩ := h.takeByte ⟨fun _ => none, []⟩
  have hr := readByte_eq ha
  simp only [hbyte, hcs, hfreed] at hr
  rw [hr]
  have hq' : ({ u with read := r, p := p, freed := u.freed ++ x.2.toList } : EthernetUDP).asClient.Holds q := hq
  refine ⟨rfl, hq', ?_, rfl, rfl, rfl, rfl⟩
  have hold : (x :: q).filterMap Prod.snd = u.p.map Pbuf.addr := h.filterMap_snd
  have hnew : q.filterMap Prod.snd = p.map Pbuf.addr := hq'.filterMap_snd
  rw [held, held, ← hold, ← hnew, List.append_assoc]
  obtain ⟨b, tag⟩ := x
  cases tag <;> rfl

theorem readLoop_eq (h : u.asClient.Holds q) (n : ℕ) :
    (u.readLoop n).1 = (q.take n).map Prod.fst ∧ (u.readLoop n).2.asClient.Holds (q.drop n) ∧
      (u.readLoop n).2.held = u.held ∧ Keeps u (u.readLoop n).2 := by
  induction n generalizing u q with
  | zero => exact ⟨rfl, h, rfl, rfl, rfl, rfl, rfl⟩
  | succ n ih =>
    cases q with
    | nil =>
      have hr : u.readLoop (n + 1) = ([], u) := by simp [readLoop, readByte_nil h]
      rw [hr]
      exact ⟨rfl, h, rfl, rfl, rfl, rfl, rfl⟩
    | cons x q =>
      obtain ⟨hbyte, hq, hheld, hkeep⟩ := readByte_cons h
      obtain ⟨hbs, hq', hheld', hkeep'⟩ := ih hq
      have hne : ¬ ((x.1.toNat : ℤ) = -1) := by omega
      have hr : u.readLoop (n + 1) = (x.1 :: (u.readByte.2.readLoop n).1, (u.readByte.2.readLoop n).2) := by
        simp [readLoop, hbyte, hne]
      rw [hr]
      exact ⟨by simp [hbs], hq', hheld'.trans hheld, hkeep.trans hkeep'⟩

theorem readBuf_eq (h : u.asClient.Holds q) (n : ℕ) :
    (u.readBuf n).1 = (if q = [] then -1 else ((min n q.length : ℕ) : ℤ), (q.take n).map Prod.fst) ∧
      (u.readBuf n).2.asClient.Holds (q.drop n) ∧ (u.readBuf n).2.held = u.held ∧ Keeps u (u.readBuf n).2 := by
  have hav := available_eq h
  have hlt : q.length < 65536 := by
    have := h.length_eq
    have := h.bound
    omega
  by_cases hq : q = []
  · have hr : u.readBuf n = ((-1, []), u) := by simp [readBuf, hav, hq]
    rw [hr]
    subst hq
    exact ⟨by simp, by simpa using h, rfl, rfl, rfl, rfl, rfl⟩
  · obtain ⟨hbs, hrest⟩ := readLoop_eq h n
    have hpos : 0 < q.length := List.length_pos_iff.mpr hq
    have hnz : ¬ u.available % 65536 = 0 := by
      rw [hav]
      omega
    have hlen : ((u.readLoop n).1.length : ℤ) % 65536 = ((min n q.length : ℕ) : ℤ) := by
      rw [hbs, List.length_map, List.length_take]
      omega
    simp only [readBuf, hnz, ↓reduceIte, hlen, hq]
    exact ⟨by rw [hbs], hrest⟩

theorem peek_eq (h : u.asClient.Holds q) : u.peek = (q.head?.map fun x => (x.1.toNat : ℤ)).getD (-1) := by
  cases q with
  | nil => simp [peek, available_eq h]
  | cons x q =>
    obtain ⟨p, next, hp, rfl, -⟩ := h.exists_head
    have ha : u.available ≠ 0 := by
      rw [available_eq h, List.length_cons]
      omega
    have hp' : u.p = p :: next := hp
    simp [peek, ha, hp', asClient]

theorem holds_packet {p : Chain} (hw : p.WellFormed) (hb : Chain.totLen p < 65536) :
    ({ Client.zero with p := p, read := 0 } : Client).Holds p.items := by
  refine ⟨hw, hb, fun r hr => ?_, fun _ => rfl, rfl⟩
  cases p with
  | nil => simp at hr
  | cons r' p =>
    obtain rfl : r' = r := by simpa using hr
    exact hw.2.1

theorem doRecv_full (h : u.count ≥ udpRxMaxPackets) (pkt : Packet) :
    u.doRecv pkt = { u with freed := u.freed ++ (pbufFree pkt.p).1 } := by
  rw [doRecv, if_pos h]

theorem doRecv_push (h : ¬ u.count ≥ udpRxMaxPackets) (pkt : Packet) :
    u.doRecv pkt = { u with
      packets := Function.update u.packets u.rear pkt
      rear := RingBuffer.wrap udpRxMaxPackets (u.rear + 1)
      count := u.count + 1 } := by
  rw [doRecv, if_neg h]
  rfl

theorem queued_doRecv (h : u.ring.Valid udpRxMaxPackets) (pkt : Packet) :
    (u.doRecv pkt).queued = if u.queued.length = udpRxMaxPackets then u.queued else u.queued ++ [pkt] := by
  have hcount : u.count ≤ udpRxMaxPackets := h.count
  have hlen : u.queued.length = u.count := RingBuffer.length_toList
  by_cases hfull : u.count ≥ udpRxMaxPackets
  · rw [if_pos (by omega), doRecv_full hfull]
    rfl
  · rw [if_neg (by omega), doRecv_push hfull]
    exact (h.push (Nat.not_le.mp hfull) pkt).2

theorem discard_spec (h : Chain.WellFormed u.p) :
    u.discard.ring = u.ring ∧ u.discard.p = [] ∧ u.discard.read = 0 ∧ u.discard.freed = u.held := by
  unfold discard
  split_ifs with hp
  · exact ⟨rfl, hp, rfl, by simp [held, hp]⟩
  · exact ⟨rfl, rfl, rfl, by rw [held, pbufFree_wellFormed h]⟩

theorem parsePacket_empty (h : Chain.WellFormed u.p) (hc : u.count = 0) : u.parsePacket = (0, u.discard) := by
  have hd : u.discard.count = 0 := (congrArg RingBuffer.count (discard_spec h).1).trans hc
  rw [parsePacket, if_pos hd]

theorem parsePacket_next (h : Chain.WellFormed u.p) (hc : u.count ≠ 0) :
    let pkt := u.packets u.front
    u.parsePacket.1 = Chain.totLen pkt.p ∧ u.parsePacket.2.ring = u.ring.pop udpRxMaxPackets ∧
      u.parsePacket.2.asClient = { Client.zero with p := pkt.p, read := 0 } ∧ u.parsePacket.2.freed = u.held ∧
      (⟨u.parsePacket.2.p, u.parsePacket.2.remoteIP, u.parsePacket.2.remotePort, u.parsePacket.2.destIP⟩ : Packet) =
        pkt := by
  obtain ⟨hring, -, hread, hfreed⟩ := discard_spec h
  have hd : u.discard.count ≠ 0 := fun h0 => hc ((congrArg RingBuffer.count hring).symm.trans h0)
  have hrear : u.discard.rear = u.rear := congrArg RingBuffer.rear hring
  have hcells : u.discard.packets = u.packets := congrArg RingBuffer.cells hring
  rw [parsePacket, if_neg hd]
  refine ⟨rfl, ?_, ?_, hfreed, rfl⟩
  · simp only [ring, hrear, hcells]
    rfl
  · simp only [asClient, hread]

end EthernetUDP

namespace UdpSession

def bytes (s : UdpSession) : List UInt8 := s.current.elim [] fun pkt => Chain.bytes pkt.p

/-- What is observed of the object agrees with the datagrams that arrived. -/
structure Exact (s : UdpSession) : Prop where
  rear : s.udp.rear = (s.udp.front + s.udp.count) % udpRxMaxPackets
  count : s.udp.count ≤ udpRxMaxPackets
  fifo : s.presented ++ s.udp.queued = s.accepted
  drop : ∀ pkt, (s.udp.doRecv pkt).queued =
    if s.udp.queued.length = udpRxMaxPackets then s.udp.queued else s.udp.queued ++ [pkt]
  next : s.udp.parsePacket.1 = s.udp.queued.head?.elim 0 fun pkt => (Chain.totLen pkt.p : ℤ)
  origin : ∀ pkt ∈ s.current,
    s.udp.remoteIP = pkt.remoteIP ∧ s.udp.remotePort = pkt.remotePort ∧ s.udp.destIP = pkt.destIP
  rest : s.flushed = false → ∃ rest, s.bytes = s.returned ++ rest ∧ s.udp.available = rest.length ∧
    s.udp.readByte.1 = (rest.head?.map fun b => (b.toNat : ℤ)).getD (-1) ∧
    s.udp.peek = (rest.head?.map fun b => (b.toNat : ℤ)).getD (-1) ∧
    ∀ n, (s.udp.readBuf n).1 = (if rest = [] then -1 else ((min n rest.length : ℕ) : ℤ), rest.take n)
  flushed : s.flushed = true → s.udp.available = 0 ∧ s.udp.readByte.1 = -1 ∧ s.udp.peek = -1 ∧
    ∀ n, (s.udp.readBuf n).1 = (-1, [])
  freed : s.udp.freed.Subperm (s.arrived.flatMap Packet.addrs)

structure Follows (s : UdpSession) : Prop where
  ring : s.udp.ring.Valid udpRxMaxPackets
  fifo : s.presented ++ s.udp.queued = s.accepted
  good : ∀ pkt ∈ s.udp.queued, pkt.p ≠ [] ∧ Chain.WellFormed pkt.p ∧ Chain.totLen pkt.p < 65536
  shape : Chain.WellFormed s.udp.p
  reading : s.flushed = false → ∃ q, s.udp.asClient.Holds q ∧ s.bytes = s.returned ++ q.map Prod.fst
  flushed : s.flushed = true → s.udp.available = 0
  origin : ∀ pkt ∈ s.current,
    s.udp.remoteIP = pkt.remoteIP ∧ s.udp.remotePort = pkt.remotePort ∧ s.udp.destIP = pkt.destIP
  owned : (s.udp.held ++ s.udp.queued.flatMap Packet.addrs).Perm (s.arrived.flatMap Packet.addrs)

variable {s : UdpSession}

theorem follows_start : start.Follows := by
  refine ⟨⟨by decide, rfl, by decide⟩, rfl, by simp [start, EthernetUDP.zero, EthernetUDP.queued, EthernetUDP.ring,
    RingBuffer.toList], trivial, fun _ => ⟨[], ?_, rfl⟩, nofun, by simp [start], .refl _⟩
  exact EthernetUDP.holds_packet (p := []) trivial (by decide)

theorem Follows.length_accepted (h : s.Follows) : s.accepted.length = s.presented.length + s.udp.count := by
  rw [← h.fifo, List.length_append, EthernetUDP.queued, RingBuffer.length_toList]
  rfl

theorem Follows.recv (h : s.Follows) {pkt : Packet} (he : s.Enabled (.recv pkt)) : (s.step (.recv pkt)).Follows := by
  have hlen := h.length_accepted
  have hcount : s.udp.count ≤ udpRxMaxPackets := h.ring.count
  have hsize : s.udp.queued.length = s.udp.count := RingBuffer.length_toList
  have hqueued := EthernetUDP.queued_doRecv h.ring pkt
  by_cases hfull : s.udp.count ≥ udpRxMaxPackets
  · have hacc : ¬ s.accepted.length < s.presented.length + udpRxMaxPackets := by omega
    simp only [step, EthernetUDP.doRecv_full hfull, hacc, ↓reduceIte]
    refine ⟨h.ring, h.fifo, h.good, h.shape, h.reading, h.flushed, h.origin, ?_⟩
    rw [List.flatMap_append, List.flatMap_singleton]
    refine List.Perm.trans ?_ (h.owned.append_right _)
    simp only [EthernetUDP.held, pbufFree_wellFormed he.2.1, List.append_assoc]
    refine List.Perm.append_left _ ?_
    have hcomm : (pkt.addrs ++ (s.udp.p.map Pbuf.addr ++ s.udp.queued.flatMap Packet.addrs)).Perm _ :=
      List.perm_append_comm
    rw [List.append_assoc] at hcomm
    exact hcomm
  · have hacc : s.accepted.length < s.presented.length + udpRxMaxPackets := by omega
    rw [if_neg (by omega)] at hqueued
    have hring : (s.udp.doRecv pkt).ring.Valid udpRxMaxPackets := by
      rw [EthernetUDP.doRecv_push hfull]
      exact (h.ring.push (Nat.not_le.mp hfull) pkt).1
    simp only [step, hacc, ↓reduceIte]
    refine ⟨hring, ?_, ?_, ?_, ?_, ?_, ?_, ?_⟩
    · dsimp only
      rw [hqueued, ← List.append_assoc, h.fifo]
    · dsimp only
      rw [hqueued]
      intro r hr
      obtain hr | hr := List.mem_append.mp hr
      · exact h.good r hr
      · obtain rfl := List.mem_singleton.mp hr
        exact he
    · rw [EthernetUDP.doRecv_push hfull]
      exact h.shape
    · rw [EthernetUDP.doRecv_push hfull]
      exact h.reading
    · rw [EthernetUDP.doRecv_push hfull]
      exact h.flushed
    · rw [EthernetUDP.doRecv_push hfull]
      exact h.origin
    · dsimp only
      rw [hqueued, EthernetUDP.doRecv_push hfull, List.flatMap_append, List.flatMap_append, ← List.append_assoc]
      exact h.owned.append_right _

theorem Follows.advance (h : s.Follows) {v : EthernetUDP} {q : List (UInt8 × Option ℕ)} (bs : List UInt8)
    (hflag : s.flushed = false) (hq : v.asClient.Holds q) (hb : s.bytes = (s.returned ++ bs) ++ q.map Prod.fst)
    (hheld : v.held = s.udp.held) (hk : EthernetUDP.Keeps s.udp v) :
    Follows { s with udp := v, returned := s.returned ++ bs } := by
  obtain ⟨hring, hip, hport, hdest⟩ := hk
  have hqueued : v.queued = s.udp.queued := congrArg (RingBuffer.toList udpRxMaxPackets) hring
  refine ⟨hring ▸ h.ring, ?_, ?_, hq.shape, fun _ => ⟨q, hq, hb⟩, fun ht => ?_, ?_, ?_⟩
  · exact hqueued ▸ h.fifo
  · exact hqueued ▸ h.good
  · exact absurd (hflag.symm.trans ht) (by simp)
  · intro pkt hpkt
    obtain ⟨h1, h2, h3⟩ := h.origin pkt hpkt
    exact ⟨hip.trans h1, hport.trans h2, hdest.trans h3⟩
  · dsimp only
    rw [hheld, hqueued]
    exact h.owned

theorem Follows.read (h : s.Follows) : (s.step .read).Follows := by
  cases hflag : s.flushed with
  | true =>
    have hr : s.udp.readByte = (-1, s.udp) := by simp [EthernetUDP.readByte, h.flushed hflag]
    simpa [step, hr] using h
  | false =>
    obtain ⟨q, hq, hb⟩ := h.reading hflag
    cases q with
    | nil =>
      have hr := EthernetUDP.readByte_nil hq
      simpa [step, hr] using h
    | cons x q =>
      obtain ⟨hbyte, hq', hheld, hk⟩ := EthernetUDP.readByte_cons hq
      have hne : ¬ ((x.1.toNat : ℤ) = -1) := by omega
      have hadv := h.advance [x.1] hflag hq' (by simp [hb]) hheld hk
      simpa [step, hbyte, hne] using hadv

theorem Follows.readBuf (h : s.Follows) (n : ℕ) : (s.step (.readBuf n)).Follows := by
  cases hflag : s.flushed with
  | true =>
    have hr : s.udp.readBuf n = ((-1, []), s.udp) := by simp [EthernetUDP.readBuf, h.flushed hflag]
    simpa [step, hr] using h
  | false =>
    obtain ⟨q, hq, hb⟩ := h.reading hflag
    obtain ⟨hbs, hq', hheld, hk⟩ := EthernetUDP.readBuf_eq hq n
    refine h.advance _ hflag hq' ?_ hheld hk
    rw [hb, hbs, List.append_assoc, ← List.map_append, List.take_append_drop]

theorem Follows.flush (h : s.Follows) : (s.step .flush).Follows := by
  have hflush : s.udp.flush.available = 0 ∧ s.udp.flush.ring = s.udp.ring ∧ s.udp.flush.p = s.udp.p ∧
      s.udp.flush.held = s.udp.held := by
    unfold EthernetUDP.flush
    split_ifs with ha
    · refine ⟨?_, rfl, rfl, rfl⟩
      simp only [EthernetUDP.available]
      split_ifs <;> simp
    · exact ⟨not_not.mp ha, rfl, rfl, rfl⟩
  have horigin : EthernetUDP.Keeps s.udp s.udp.flush := by
    unfold EthernetUDP.flush
    split_ifs <;> exact ⟨rfl, rfl, rfl, rfl⟩
  obtain ⟨hav, hring, hp, hheld⟩ := hflush
  have hqueued : s.udp.flush.queued = s.udp.queued := congrArg (RingBuffer.toList udpRxMaxPackets) hring
  refine ⟨hring ▸ h.ring, hqueued ▸ h.fifo, hqueued ▸ h.good, hp ▸ h.shape, nofun, fun _ => hav, ?_, ?_⟩
  · intro pkt hpkt
    obtain ⟨h1, h2, h3⟩ := h.origin pkt hpkt
    exact ⟨horigin.2.1.trans h1, horigin.2.2.1.trans h2, horigin.2.2.2.trans h3⟩
  · change (s.udp.flush.held ++ s.udp.flush.queued.flatMap Packet.addrs).Perm _
    rw [hheld, hqueued]
    exact h.owned

theorem Follows.parsePacket (h : s.Follows) : (s.step .parsePacket).Follows := by
  by_cases hc : s.udp.count = 0
  · obtain ⟨hring, hp, hread, hfreed⟩ := EthernetUDP.discard_spec h.shape
    have hqueued : s.udp.discard.queued = s.udp.queued := congrArg (RingBuffer.toList udpRxMaxPackets) hring
    have hclient : s.udp.discard.asClient = { Client.zero with p := [], read := 0 } := by
      simp only [EthernetUDP.asClient, hp, hread]
    simp only [step, EthernetUDP.parsePacket_empty h.shape hc, ↓reduceIte, List.append_nil, List.head?_nil]
    refine ⟨hring ▸ h.ring, hqueued ▸ h.fifo, hqueued ▸ h.good, ?_, fun _ => ⟨[], ?_, rfl⟩, nofun, by simp, ?_⟩
    · dsimp only
      rw [hp]
      trivial
    · rw [hclient]
      exact EthernetUDP.holds_packet (p := []) trivial (by decide)
    · have hheld : s.udp.discard.held = s.udp.held := by
        rw [EthernetUDP.held, hp, hfreed]
        exact List.append_nil _
      dsimp only
      rw [hheld, hqueued]
      exact h.owned
  · obtain ⟨hlen, hring, hclient, hfreed, hpkt⟩ := EthernetUDP.parsePacket_next h.shape hc
    obtain ⟨hvalid, hpop⟩ := h.ring.pop (Nat.pos_of_ne_zero hc)
    have hqueued : s.udp.queued = s.udp.packets s.udp.front :: s.udp.parsePacket.2.queued := by
      rw [EthernetUDP.queued, hpop, EthernetUDP.queued, hring]
      rfl
    obtain ⟨hne, hw, hb⟩ := h.good (s.udp.packets s.udp.front) (by rw [hqueued]; simp)
    have hnz : s.udp.parsePacket.1 ≠ 0 := by
      have := hw.totLen_pos hne
      rw [hlen]
      omega
    have hp : s.udp.parsePacket.2.p = (s.udp.packets s.udp.front).p := congrArg Packet.p hpkt
    simp only [step, hnz, ↓reduceIte, hpkt, List.head?_cons]
    refine ⟨hring ▸ hvalid, ?_, ?_, ?_, fun _ => ⟨_, hclient ▸ EthernetUDP.holds_packet hw hb, ?_⟩, nofun, ?_, ?_⟩
    · rw [List.append_assoc, List.singleton_append, ← hqueued, h.fifo]
    · exact fun r hr => h.good r (by rw [hqueued]; exact List.mem_cons_of_mem _ hr)
    · exact hp ▸ hw
    · exact (Chain.map_fst_items _).symm
    · intro r hr
      obtain rfl := Option.some.inj hr
      exact ⟨congrArg Packet.remoteIP hpkt, congrArg Packet.remotePort hpkt, congrArg Packet.destIP hpkt⟩
    · have howned := h.owned
      rw [hqueued, List.flatMap_cons, ← List.append_assoc] at howned
      dsimp only
      rw [EthernetUDP.held, hfreed, hp]
      exact howned

theorem follows_step {e : UdpEvent} (he : s.Enabled e) (h : s.Follows) : (s.step e).Follows := by
  cases e with
  | recv pkt => exact h.recv he
  | parsePacket => exact h.parsePacket
  | read => exact h.read
  | readBuf n => exact h.readBuf n
  | flush => exact h.flush
  | peek => exact h
  | available => exact h

theorem Follows.next (h : s.Follows) :
    s.udp.parsePacket.1 = s.udp.queued.head?.elim 0 fun pkt => (Chain.totLen pkt.p : ℤ) := by
  by_cases hc : s.udp.count = 0
  · have hnil : s.udp.queued = [] := List.length_eq_zero_iff.mp (RingBuffer.length_toList.trans hc)
    rw [EthernetUDP.parsePacket_empty h.shape hc, hnil]
    rfl
  · rw [(EthernetUDP.parsePacket_next h.shape hc).1, EthernetUDP.queued, (h.ring.pop (Nat.pos_of_ne_zero hc)).2]
    rfl

theorem Follows.rest (h : s.Follows) (hflag : s.flushed = false) :
    ∃ rest, s.bytes = s.returned ++ rest ∧ s.udp.available = rest.length ∧
      s.udp.readByte.1 = (rest.head?.map fun b => (b.toNat : ℤ)).getD (-1) ∧
      s.udp.peek = (rest.head?.map fun b => (b.toNat : ℤ)).getD (-1) ∧
      ∀ n, (s.udp.readBuf n).1 = (if rest = [] then -1 else ((min n rest.length : ℕ) : ℤ), rest.take n) := by
  obtain ⟨q, hq, hb⟩ := h.reading hflag
  refine ⟨q.map Prod.fst, hb, ?_, ?_, ?_, fun n => ?_⟩
  · rw [EthernetUDP.available_eq hq, List.length_map]
  · cases q with
    | nil => rw [EthernetUDP.readByte_nil hq]; rfl
    | cons x q => rw [(EthernetUDP.readByte_cons hq).1]; rfl
  · rw [EthernetUDP.peek_eq hq]
    cases q <;> rfl
  · rw [(EthernetUDP.readBuf_eq hq n).1, List.map_take, List.length_map]
    simp only [List.map_eq_nil_iff]

theorem Follows.exact (h : s.Follows) : s.Exact := by
  refine ⟨h.ring.rear, h.ring.count, h.fifo, EthernetUDP.queued_doRecv h.ring, h.next, h.origin, h.rest,
    fun hflag => ?_, ?_⟩
  · have ha := h.flushed hflag
    exact ⟨ha, by simp [EthernetUDP.readByte, ha], by simp [EthernetUDP.peek, ha],
      fun n => by simp [EthernetUDP.readBuf, ha]⟩
  · refine List.Subperm.trans ?_ h.owned.subperm
    rw [EthernetUDP.held, List.append_assoc]
    exact (List.sublist_append_left _ _).subperm

end UdpSession

/-- The receive queue of an object in zeroed storage is a FIFO of at most 32 datagrams. -/
theorem udp_queue_faithful (es : List UdpEvent) (hl : udpMachine.Legal .start es) :
    (udpMachine.run .start es).Exact :=
  (Machine.invariant (M := udpMachine) (fun _ _ he h => UdpSession.follows_step he h) UdpSession.follows_start hl).exact

theorem udp_queue_faithful_two_datagrams :
    let a : Packet := ⟨[⟨20, [1, 2], 2, 3, 1⟩, ⟨21, [3], 1, 1, 1⟩], 7, 70, 9⟩
    let b : Packet := ⟨[⟨22, [4], 1, 1, 1⟩], 8, 80, 9⟩
    let s := udpMachine.run .start
      [.recv a, .parsePacket, .read, .recv b, .readBuf 4, .parsePacket, .flush]
    s.presented = [a, b] ∧ s.udp.freed = [20, 21] ∧ s.Exact := by
  intro a b s
  exact ⟨by decide, by decide, udp_queue_faithful _ (by decide)⟩

end LogoCore.Ethernet
