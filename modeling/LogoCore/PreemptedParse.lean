import LogoCore.ParseAccesses

namespace LogoCore.Ethernet

namespace Parser

variable {x : Parser} {pkt : Packet}

def expected (x : Parser) : ℕ :=
  match x.point with
  | .store c => c + x.taken.length
  | .loadFront | .storeFront _ | .testFront | .resetFront | .result => x.udp.count + x.taken.length + 1
  | .idle | .test | .index _ | .field _ _ | .load => x.udp.count + x.taken.length

def Started (x : Parser) : Prop :=
  match x.point with
  | .index _ | .field _ _ | .load => 0 < x.udp.count
  | .store c => 0 < c
  | .idle | .test | .loadFront | .storeFront _ | .testFront | .resetFront | .result => True

theorem count_copyField (u : EthernetUDP) (f : PacketField) : (u.copyField pkt f).count = u.count := by
  cases f <;> rfl

theorem count_le_doRecv (u : EthernetUDP) : u.count ≤ (u.doRecv pkt).count := by
  by_cases hfull : u.count ≥ udpRxMaxPackets
  · rw [EthernetUDP.doRecv_full hfull]
  · rw [EthernetUDP.doRecv_push hfull]
    exact Nat.le_succ _

theorem started_step (h : x.Started) (e : ParseEvent) : (x.step e).Started := by
  obtain ⟨udp, point, accepted, taken⟩ := x
  cases e with
  | call => trivial
  | advance =>
    cases point with
    | test =>
      by_cases hc : udp.count = 0
      · simp [step, advance, Started, hc]
      · simpa [step, advance, Started, hc] using Nat.pos_of_ne_zero hc
    | field f i =>
      have hpos : 0 < (udp.copyField (udp.packets i) f).count := (count_copyField udp f).symm ▸ h
      cases f <;> exact hpos
    | testFront =>
      by_cases hf : udp.front = udpRxMaxPackets <;> simp [step, advance, Started, hf]
    | index f => exact h
    | load => exact h
    | idle => trivial
    | store c => trivial
    | loadFront => trivial
    | storeFront i => trivial
    | resetFront => trivial
    | result => trivial
  | recv pkt =>
    have hmono : udp.count ≤ (udp.doRecv pkt).count := count_le_doRecv udp
    cases point with
    | index f => exact Nat.lt_of_lt_of_le h hmono
    | field f i => exact Nat.lt_of_lt_of_le h hmono
    | load => exact Nat.lt_of_lt_of_le h hmono
    | store c => exact h
    | _ => trivial

theorem expected_step (h : x.Started) {e : ParseEvent} (he : x.Enabled e) :
    (x.Undisturbed e → (x.step e).accepted.length + x.expected = x.accepted.length + (x.step e).expected) ∧
      (¬ x.Undisturbed e →
        (x.step e).accepted.length + x.expected = x.accepted.length + (x.step e).expected + 1) := by
  obtain ⟨udp, point, accepted, taken⟩ := x
  cases e with
  | call =>
    obtain rfl : point = .idle := he
    refine ⟨fun _ => ?_, fun hd => absurd trivial hd⟩
    simp [step, expected, count_discard]
  | advance =>
    refine ⟨fun _ => ?_, fun hd => absurd trivial hd⟩
    cases point with
    | test =>
      by_cases hc : udp.count = 0 <;> simp [step, advance, expected, hc]
    | field f i =>
      cases f <;> rfl
    | store c =>
      have hpos : 0 < c := h
      simp only [step, advance, expected]
      omega
    | testFront =>
      by_cases hf : udp.front = udpRxMaxPackets <;> simp [step, advance, expected, hf]
    | result =>
      simp only [step, advance, expected, List.length_append, List.length_singleton]
      omega
    | _ => rfl
  | recv pkt =>
    by_cases hfull : udp.count ≥ udpRxMaxPackets
    · refine ⟨fun _ => ?_, fun hd => absurd (Or.inr hfull) hd⟩
      simp only [step, EthernetUDP.doRecv_full hfull, hfull, ↓reduceIte]
      rfl
    · cases point with
      | store c =>
        refine ⟨fun hd => absurd (hd.resolve_left (Option.some_ne_none c)) hfull, fun _ => ?_⟩
        simp only [step, hfull, ↓reduceIte, expected, List.length_append, List.length_singleton]
        omega
      | _ =>
        refine ⟨fun _ => ?_, fun hd => absurd (Or.inl rfl) hd⟩
        simp only [step, EthernetUDP.doRecv_push hfull, hfull, ↓reduceIte, expected, List.length_append,
          List.length_singleton]
        omega

def settled (x : Parser) : RingBuffer Packet :=
  match x.point with
  | .loadFront => { x.udp.ring with front := RingBuffer.wrap udpRxMaxPackets (x.udp.front + 1) }
  | .storeFront front => { x.udp.ring with front := RingBuffer.wrap udpRxMaxPackets (front + 1) }
  | .testFront => { x.udp.ring with front := RingBuffer.wrap udpRxMaxPackets x.udp.front }
  | .resetFront => { x.udp.ring with front := 0 }
  | .idle | .test | .index _ | .field _ _ | .load | .store _ | .result => x.udp.ring

def pending (x : Parser) : List Packet :=
  match x.point with
  | .loadFront | .storeFront _ | .testFront | .resetFront | .result => [x.udp.current]
  | .idle | .test | .index _ | .field _ _ | .load | .store _ => []

def Copied (pkt : Packet) (u : EthernetUDP) : PacketField → Prop
  | .p => True
  | .remoteIP => u.p = pkt.p
  | .remotePort => u.p = pkt.p ∧ u.remoteIP = pkt.remoteIP
  | .destIP => u.p = pkt.p ∧ u.remoteIP = pkt.remoteIP ∧ u.remotePort = pkt.remotePort

theorem Copied.current {u : EthernetUDP} (h : Copied pkt u .destIP) : (u.copyField pkt .destIP).current = pkt := by
  obtain ⟨hp, hip, hport⟩ := h
  simp only [EthernetUDP.current, EthernetUDP.copyField, hp, hip, hport]

/-- What the call in progress has loaded is still what the queue holds. -/
def Fresh (x : Parser) : Prop :=
  match x.point with
  | .index f => 0 < x.udp.count ∧ Copied (x.udp.packets x.udp.front) x.udp f
  | .field f front => 0 < x.udp.count ∧ front = x.udp.front ∧ Copied (x.udp.packets x.udp.front) x.udp f
  | .load => 0 < x.udp.count ∧ x.udp.current = x.udp.packets x.udp.front
  | .store c => 0 < x.udp.count ∧ c = x.udp.count ∧ x.udp.current = x.udp.packets x.udp.front
  | .idle | .test | .loadFront | .storeFront _ | .testFront | .resetFront | .result => True

structure Tracks (x : Parser) : Prop where
  ring : x.settled.Valid udpRxMaxPackets
  fifo : x.taken ++ x.pending ++ x.settled.toList udpRxMaxPackets = x.accepted
  fresh : x.Fresh

theorem settled_recv (x : Parser) (h : ¬ x.udp.count ≥ udpRxMaxPackets) :
    (x.step (.recv pkt)).settled = x.settled.push udpRxMaxPackets pkt := by
  obtain ⟨udp, point, accepted, taken⟩ := x
  simp only [step, EthernetUDP.doRecv_push h]
  cases point <;> rfl

theorem count_settled (x : Parser) : x.settled.count = x.udp.count := by
  obtain ⟨udp, point, accepted, taken⟩ := x
  cases point <;> rfl

theorem fresh_recv (h : x.Fresh) (hv : x.settled.Valid udpRxMaxPackets) (hu : x.Undisturbed (.recv pkt))
    (hfull : ¬ x.udp.count ≥ udpRxMaxPackets) : (x.step (.recv pkt)).Fresh := by
  obtain ⟨udp, point, accepted, taken⟩ := x
  have hlt : udp.count < udpRxMaxPackets := Nat.not_le.mp hfull
  have hkeep (hring : udp.ring.Valid udpRxMaxPackets) (hpos : 0 < udp.count) :
      Function.update udp.packets udp.rear pkt udp.front = udp.packets udp.front := hring.front_push hpos hlt pkt
  simp only [step, EthernetUDP.doRecv_push hfull]
  cases point with
  | index f =>
    refine ⟨Nat.succ_pos _, ?_⟩
    dsimp only
    rw [hkeep hv h.1]
    cases f <;> exact h.2
  | field f i =>
    refine ⟨Nat.succ_pos _, h.2.1, ?_⟩
    dsimp only
    rw [hkeep hv h.1]
    cases f <;> exact h.2.2
  | load => exact ⟨Nat.succ_pos _, h.2.trans (hkeep hv h.1).symm⟩
  | store c => exact absurd (hu.resolve_left (Option.some_ne_none c)) hfull
  | _ => trivial

theorem Tracks.recv (h : x.Tracks) (hu : x.Undisturbed (.recv pkt)) : (x.step (.recv pkt)).Tracks := by
  by_cases hfull : x.udp.count ≥ udpRxMaxPackets
  · obtain ⟨udp, point, accepted, taken⟩ := x
    simp only [step, EthernetUDP.doRecv_full hfull, hfull, ↓reduceIte]
    cases point <;> exact ⟨h.ring, h.fifo, h.fresh⟩
  · have hlt : x.settled.count < udpRxMaxPackets := by
      rw [count_settled]
      exact Nat.not_le.mp hfull
    obtain ⟨hvalid, hpush⟩ := h.ring.push hlt pkt
    have hpending : (x.step (.recv pkt)).pending = x.pending := by
      obtain ⟨udp, point, accepted, taken⟩ := x
      simp only [step, EthernetUDP.doRecv_push hfull]
      cases point <;> rfl
    have haccepted : (x.step (.recv pkt)).accepted = x.accepted ++ [pkt] := if_neg hfull
    refine ⟨?_, ?_, fresh_recv h.fresh h.ring hu hfull⟩
    · rw [settled_recv x hfull]
      exact hvalid
    · rw [settled_recv x hfull, hpending, haccepted, hpush, ← List.append_assoc, ← h.fifo]
      rfl

theorem Tracks.advance (h : x.Tracks) : x.advance.Tracks := by
  obtain ⟨udp, point, accepted, taken⟩ := x
  obtain ⟨hring, hfifo, hfresh⟩ := h
  cases point with
  | idle => exact ⟨hring, hfifo, hfresh⟩
  | test =>
    by_cases hc : udp.count = 0
    · simp only [Parser.advance, hc, ↓reduceIte]
      exact ⟨hring, hfifo, trivial⟩
    · simp only [Parser.advance, hc, ↓reduceIte]
      exact ⟨hring, hfifo, Nat.pos_of_ne_zero hc, trivial⟩
  | index f => exact ⟨hring, hfifo, hfresh.1, rfl, hfresh.2⟩
  | field f i =>
    obtain ⟨hpos, hi, hcopied⟩ := hfresh
    obtain rfl : i = udp.front := hi
    cases f with
    | p => exact ⟨hring, hfifo, hpos, rfl⟩
    | remoteIP => exact ⟨hring, hfifo, hpos, hcopied, rfl⟩
    | remotePort => exact ⟨hring, hfifo, hpos, hcopied.1, hcopied.2, rfl⟩
    | destIP => exact ⟨hring, hfifo, hpos, hcopied.current⟩
  | load => exact ⟨hring, hfifo, hfresh.1, rfl, hfresh.2⟩
  | store c =>
    obtain ⟨hpos, hc, hcurrent⟩ := hfresh
    obtain rfl : c = udp.count := hc
    obtain ⟨hvalid, hpop⟩ := hring.pop hpos
    refine ⟨hvalid, ?_, trivial⟩
    refine Eq.trans ?_ hfifo
    change taken ++ [udp.current] ++ (udp.ring.pop udpRxMaxPackets).toList udpRxMaxPackets =
      taken ++ [] ++ udp.ring.toList udpRxMaxPackets
    have hhead : udp.ring.toList udpRxMaxPackets =
        udp.packets udp.front :: (udp.ring.pop udpRxMaxPackets).toList udpRxMaxPackets := hpop
    rw [hhead, hcurrent, List.append_nil, List.append_assoc, List.singleton_append]
  | loadFront => exact ⟨hring, hfifo, trivial⟩
  | storeFront i => exact ⟨hring, hfifo, trivial⟩
  | testFront =>
    by_cases hf : udp.front = udpRxMaxPackets
    · have hwrap : RingBuffer.wrap udpRxMaxPackets udp.front = 0 := if_pos hf
      simp only [settled, hwrap] at hring hfifo
      simp only [Parser.advance, hf, ↓reduceIte]
      exact ⟨hring, hfifo, trivial⟩
    · have hwrap : RingBuffer.wrap udpRxMaxPackets udp.front = udp.front := if_neg hf
      simp only [settled, hwrap] at hring hfifo
      simp only [Parser.advance, hf, ↓reduceIte]
      exact ⟨hring, hfifo, trivial⟩
  | resetFront => exact ⟨hring, hfifo, trivial⟩
  | result =>
    refine ⟨hring, ?_, trivial⟩
    refine Eq.trans ?_ hfifo
    change taken ++ [udp.current] ++ [] ++ udp.ring.toList udpRxMaxPackets = _
    rw [List.append_nil]
    rfl

theorem tracks_step {e : ParseEvent} (he : x.Enabled e) (hu : x.Undisturbed e) (h : x.Tracks) :
    (x.step e).Tracks := by
  cases e with
  | call =>
    obtain ⟨udp, point, accepted, taken⟩ := x
    obtain rfl : point = .idle := he
    have hring : udp.discard.ring = udp.ring := by
      unfold EthernetUDP.discard
      split_ifs <;> rfl
    refine ⟨?_, ?_, trivial⟩
    · change udp.discard.ring.Valid udpRxMaxPackets
      rw [hring]
      exact h.ring
    · change taken ++ [] ++ udp.discard.ring.toList udpRxMaxPackets = accepted
      rw [hring]
      exact h.fifo
  | advance => exact h.advance
  | recv pkt => exact h.recv hu

theorem tracks_start : start.Tracks := by
  refine ⟨⟨by decide, rfl, by decide⟩, rfl, trivial⟩

theorem undisturbed_parseCall (x : Parser) : (Machine.mk Undisturbed step).Legal x parseCall := by
  simp [parseCall, List.replicate, Machine.Legal, Undisturbed]

theorem Tracks.parseCall (h : x.Tracks) (hi : x.point = .idle) : (parseMachine.run x parseCall).Tracks := by
  have hl : parseMachine.Legal x Ethernet.parseCall :=
    ⟨hi, by simp [List.replicate, Machine.Legal, parseMachine, Enabled]⟩
  exact Machine.invariant_under (M := parseMachine) (I := Tracks) (fun _ _ he hu hy => tracks_step he hu hy) h hl
    (undisturbed_parseCall x)

theorem Tracks.parseCalls (h : x.Tracks) (hi : x.point = .idle) {n : ℕ} (hn : x.udp.count = n) :
    (parseMachine.run x (parseCalls n)).taken = x.accepted := by
  induction n generalizing x with
  | zero =>
    obtain ⟨udp, point, accepted, taken⟩ := x
    obtain rfl : point = .idle := hi
    have hnil : udp.ring.toList udpRxMaxPackets = [] :=
      List.length_eq_zero_iff.mp (RingBuffer.length_toList.trans hn)
    have hfifo : taken ++ [] ++ udp.ring.toList udpRxMaxPackets = accepted := h.fifo
    rw [hnil, List.append_nil, List.append_nil] at hfifo
    exact hfifo
  | succ n ih =>
    have hnext := h.parseCall hi
    rw [run_parseCall hi] at hnext
    rw [Ethernet.parseCalls, Machine.run_append, run_parseCall hi]
    refine ih hnext hi ?_
    simp only [EthernetUDP.parsePacket, count_discard, hn, Nat.succ_ne_zero, ↓reduceIte, Nat.add_sub_cancel]

theorem Tracks.consistent (h : x.Tracks) (hi : x.point = .idle) : x.Consistent := by
  have hdrain := h.parseCalls hi rfl
  obtain ⟨udp, point, accepted, taken⟩ := x
  obtain rfl : point = .idle := hi
  have hfifo : taken ++ [] ++ udp.queued = accepted := h.fifo
  rw [List.append_nil] at hfifo
  refine ⟨?_, hfifo, hdrain⟩
  have hlen : udp.queued.length = udp.count := RingBuffer.length_toList
  dsimp only
  rw [← hfifo, List.length_append, hlen, Nat.add_comm]

theorem expected_run (h : x.Started) {es : List ParseEvent} (hl : parseMachine.Legal x es) :
    let y := parseMachine.run x es
    x.accepted.length + y.expected ≤ y.accepted.length + x.expected ∧
      (¬ (Machine.mk Undisturbed step).Legal x es →
        x.accepted.length + y.expected < y.accepted.length + x.expected) := by
  induction es generalizing x with
  | nil => exact ⟨Nat.le_refl _, fun hn => absurd trivial hn⟩
  | cons e es ih =>
    obtain ⟨hkept, hlost⟩ := expected_step h hl.1
    obtain ⟨hle, hlt⟩ := ih (started_step h e) hl.2
    intro y
    change (x.step e).accepted.length + y.expected ≤ y.accepted.length + (x.step e).expected at hle
    by_cases hu : x.Undisturbed e
    · have hkept := hkept hu
      refine ⟨by omega, fun hn => ?_⟩
      have hlt : (x.step e).accepted.length + y.expected < y.accepted.length + (x.step e).expected :=
        hlt fun hes => hn ⟨hu, hes⟩
      omega
    · have hlost := hlost hu
      exact ⟨by omega, fun _ => by omega⟩

end Parser

/-- Between calls nothing is lost exactly when no datagram was accepted between the load and the store of
`count--`. -/
theorem datagrams_kept_iff (es : List ParseEvent) (hl : parseMachine.Legal .start es)
    (hi : (parseMachine.run .start es).point = .idle) :
    (parseMachine.run .start es).Consistent ↔ (Machine.mk Parser.Undisturbed Parser.step).Legal .start es := by
  constructor
  · intro hc
    by_contra hn
    have hlost := (Parser.expected_run (x := .start) trivial hl).2 hn
    have hcount := hc.count
    simp only [Parser.expected, hi] at hlost
    change 0 + _ < _ + 0 at hlost
    omega
  · intro hu
    have htracks := Machine.invariant_under (M := parseMachine) (fun _ _ he hu h => Parser.tracks_step he hu h)
      Parser.tracks_start hl hu
    exact htracks.consistent hi

theorem datagrams_kept_early_arrival :
    let a : Packet := ⟨[⟨20, [1, 2], 2, 2, 1⟩], 7, 70, 9⟩
    let b : Packet := ⟨[⟨22, [4], 1, 1, 1⟩], 8, 80, 9⟩
    let es : List ParseEvent := [.recv a, .call] ++ List.replicate 9 .advance ++ .recv b :: List.replicate 7 .advance
    (parseMachine.run .start es).taken = [a] ∧ (parseMachine.run .start es).Consistent := by
  intro a b es
  exact ⟨by decide, (datagrams_kept_iff es (by decide) (by decide)).mpr (by decide)⟩

/-- A datagram accepted between the load and the store is never returned. -/
theorem datagram_lost_in_count :
    let a : Packet := ⟨[⟨20, [1, 2], 2, 2, 1⟩], 7, 70, 9⟩
    let b : Packet := ⟨[⟨22, [4], 1, 1, 1⟩], 8, 80, 9⟩
    let es : List ParseEvent := [.recv a, .call] ++ List.replicate 10 .advance ++ .recv b :: List.replicate 7 .advance
    let x := parseMachine.run .start es
    parseMachine.Legal .start es ∧ x.point = .idle ∧ x.accepted = [a, b] ∧ x.taken = [a] ∧ x.udp.count = 0 ∧
      x.udp.parsePacket.1 = 0 ∧ ¬ x.Consistent := by
  refine ⟨by decide, by decide, by decide, by decide, by decide, by decide, fun hc => ?_⟩
  exact absurd hc.count (by decide)

end LogoCore.Ethernet
