import LogoCore.AcceptOnce
import Mathlib.Data.List.Nodup

namespace LogoCore.Ethernet

namespace Acceptor

def claimable (x : Acceptor) : List Slot := (List.finRange maxClients).filter x.Claimable

theorem mem_claimable {x : Acceptor} {i : Slot} : i ∈ x.claimable ↔
    (x.clients i).port ≠ 0 ∧ (x.clients i).claimed = false ∧
      EthernetServer.established x.clients x.world.net i = true := by
  simp [claimable, Claimable, and_assoc]

theorem claimable_nodup (x : Acceptor) : x.claimable.Nodup := (List.nodup_finRange _).filter _

theorem unclaimed_eq_head (x : Acceptor) :
    EthernetServer.unclaimed x.clients x.world.net = x.claimable.head? := List.head?_filter.symm

/-- What the calls of `accept()` leave alone. -/
structure Untouched (x y : Acceptor) : Prop where
  slots : Steady x.clients y.clients
  net : y.world.net = x.world.net
  conn : y.conn = x.conn

theorem Untouched.refl (x : Acceptor) : Untouched x x := ⟨.refl _, rfl, rfl⟩

theorem Untouched.trans {x y z : Acceptor} (h : Untouched x y) (h' : Untouched y z) : Untouched x z :=
  ⟨h.slots.trans h'.slots, h'.net.trans h.net, h'.conn.trans h.conn⟩

theorem established_of_steady {c d : Slots} (h : Steady c d) (n : Net) (i : Slot) :
    EthernetServer.established d n i = EthernetServer.established c n i := by
  simp only [EthernetServer.established, h.cpcb]

theorem claimable_filter {x y : Acceptor} (h : Untouched x y) {i : Slot}
    (hc : ∀ j, (y.clients j).claimed = ((x.clients j).claimed || decide (j = i))) :
    y.claimable = x.claimable.filter (· ≠ i) := by
  rw [claimable, claimable, List.filter_filter]
  refine List.filter_congr fun j _ => ?_
  simp only [Claimable, h.slots.port, established_of_steady h.slots, h.net, hc]
  by_cases hj : j = i
  · simp [hj]
  · simp [hj]

theorem acceptCall_untouched (x : Acceptor) (k : ObjId × Client) :
    Untouched x (acceptMachine.run x (acceptCall k)) := by
  rw [run_acceptCall]
  exact ⟨EthernetServer.accept_steady _ _ _, rfl, rfl⟩

theorem acceptCall_last {x : Acceptor} (hx : x.claimable = []) (k : ObjId × Client) :
    ∃ e : EthernetClient, (acceptMachine.run x (acceptCall k)).returned = x.returned ++ [(e, none)] ∧
      e.cs = .own ∧ e.clientState.cpcb = none := by
  have hu : EthernetServer.unclaimed x.world.server.clients x.world.net = none := by
    rw [← clients, unclaimed_eq_head, hx]; rfl
  rw [run_acceptCall]
  simp only [clients, hu, EthernetServer.accept, Option.bind_none]
  exact ⟨_, rfl, rfl, rfl⟩

theorem acceptCall_next {x : Acceptor} {i : Slot} {left : List Slot} (hx : x.claimable = i :: left)
    (k : ObjId × Client) :
    ∃ e : EthernetClient, (acceptMachine.run x (acceptCall k)).returned = x.returned ++ [(e, x.conn i)] ∧
      e.cs = .slot i ∧ e.generation = (x.clients i).generation ∧
      (acceptMachine.run x (acceptCall k)).claimable = left := by
  have hu : EthernetServer.unclaimed x.world.server.clients x.world.net = some i := by
    rw [← clients, unclaimed_eq_head, hx]; rfl
  have hnot : i ∉ left := by
    have := x.claimable_nodup
    rw [hx] at this
    exact (List.nodup_cons.mp this).1
  have hrest : x.claimable.filter (· ≠ i) = left := by
    rw [hx, List.filter_cons_of_neg (by simp), List.filter_eq_self.mpr]
    intro j hj
    simpa using fun h : j = i => hnot (h ▸ hj)
  have hmark (j : Slot) : ((acceptMachine.run x (acceptCall k)).clients j).claimed =
      ((x.clients j).claimed || decide (j = i)) := by
    rw [run_acceptCall]
    by_cases hj : j = i
    · subst j; simp [clients, World.step, EthernetServer.accept, hu, EthernetServer.handle]
    · simp [clients, World.step, EthernetServer.accept, hu, EthernetServer.handle, hj]
  rw [claimable_filter (acceptCall_untouched x k) hmark, hrest, run_acceptCall]
  simp only [clients, hu, EthernetServer.accept, Option.bind_some, EthernetServer.handle]
  exact ⟨_, rfl, rfl, by simp, trivial⟩

theorem acceptCalls {left : List Slot} {x : Acceptor} (hx : x.claimable = left) {ks : List (ObjId × Client)}
    (hk : ks.length = left.length + 1) :
    let y := acceptMachine.run x (ks.flatMap acceptCall)
    Untouched x y ∧ y.point = .idle ∧ ∃ (hs : List (EthernetClient × Option ℕ)) (e : EthernetClient),
      y.returned = x.returned ++ hs ++ [(e, none)] ∧ e.cs = .own ∧ e.clientState.cpcb = none ∧
      hs.map (fun h => (h.1.cs, h.1.generation, h.2)) =
        left.map fun i => (.slot i, (x.clients i).generation, x.conn i) := by
  induction left generalizing x ks with
  | nil =>
    obtain ⟨k, rfl⟩ := List.length_eq_one_iff.mp hk
    simp only [List.flatMap_cons, List.flatMap_nil, List.append_nil]
    obtain ⟨e, he, hown, hnone⟩ := acceptCall_last hx k
    refine ⟨acceptCall_untouched x k, by rw [run_acceptCall], [], e, by simpa using he, hown, hnone, rfl⟩
  | cons i left ih =>
    obtain ⟨k, ks, rfl⟩ := List.exists_cons_of_length_pos (l := ks) (by rw [hk]; simp)
    obtain ⟨e, he, hslot, hgen, hleft⟩ := acceptCall_next hx k
    have hone := acceptCall_untouched x k
    have hks : ks.length = left.length + 1 := by simpa using hk
    obtain ⟨hrest, hidle, hs, e', hret, hown, hnone, hmap⟩ := ih hleft hks
    simp only [List.flatMap_cons, Machine.run_append]
    refine ⟨hone.trans hrest, hidle, (e, x.conn i) :: hs, e', ?_, hown, hnone, ?_⟩
    · rw [hret, he]
      simp
    · simp only [List.map_cons, hslot, hgen, hmap, hone.conn, hone.slots.generation]

def Marked (x : Acceptor) : AcceptEvent → Prop
  | .event e => x.world.Marked e
  | _ => True

theorem sound_setSlot {x : Acceptor} (h : x.world.Sound) (i : Slot) (b c : Bool) (p : AcceptPoint) :
    ({ x.setSlot i { x.clients i with claimed := b, mode := c } with point := p } : Acceptor).world.Sound :=
  h.setClients (h.owned.steady (steady_update _ _ _ rfl rfl rfl fun _ h => h) (.refl _))

theorem sound_finish {x : Acceptor} (h : x.world.Sound) (e : EthernetClient) (c : Option ℕ)
    (he : e.cs = .own → e.clientState.cpcb = none ∧ e.clientState.p = []) : (x.finish e c).world.Sound :=
  h.setObj _ _ fun e' he' => by cases he'; exact he

theorem sound_advance {x : Acceptor} (h : x.world.Sound) (freed : TcpState) : (x.advance freed).world.Sound := by
  unfold advance
  split
  · exact h
  · exact sound_finish h _ _ fun _ => ⟨rfl, rfl⟩
  · split_ifs <;> exact h
  · split_ifs <;> exact h
  · split <;> exact h
  · split_ifs <;> exact h
  · exact sound_setSlot h _ _ _ _
  · exact sound_setSlot h _ _ _ _
  · exact sound_finish h _ _ nofun

theorem sound_acceptor {x : Acceptor} (h : x.world.Sound) {e : AcceptEvent} (he : x.Enabled e)
    (hm : x.Marked e) : (x.step e).world.Sound := by
  cases e with
  | event e =>
    simp only [step]
    split
    · exact World.sound_step h he.1 hm
    · exact World.sound_step h he.1 hm
  | call k mem => exact h
  | advance freed => exact sound_advance h freed

/-- An established connection in slot `i` that no call of `accept()` has returned. -/
def Waiting (x : Acceptor) (i : Slot) : Prop :=
  ∃ p b, x.world.net.pcbs p = some b ∧ b.callbackArg = .slot i ∧ b.state = .established ∧
    ∀ s ∈ x.conn i, s ∉ x.handed

theorem mem_claimable_iff_waiting {x : Acceptor} (h : Once x) (hw : x.world.Sound) (hp : x.point = .idle)
    (i : Slot) : i ∈ x.claimable ↔ x.Waiting i := by
  have hclaimed : (x.clients i).claimed = false ↔ ∀ s ∈ x.conn i, s ∉ x.handed := by
    rw [← Bool.not_eq_true, h.accounted i, hp]
    constructor
    · exact fun hn s hs hmem => hn (.inr ⟨s, hmem, hs⟩)
    · rintro hn (hm | ⟨s, hmem, hs⟩)
      · cases hm
      · exact hn s hs hmem
  rw [mem_claimable, hclaimed]
  constructor
  · rintro ⟨-, hfresh, he⟩
    cases hc : (x.clients i).cpcb with
    | none => simp [EthernetServer.established, hc] at he
    | some p =>
      obtain ⟨b, hb, ha⟩ := hw.owned.live i p hc
      have hs : b.state = .established := by simpa [EthernetServer.established, hc, hb] using he
      exact ⟨p, b, hb, ha, hs, hfresh⟩
  · rintro ⟨p, b, hb, ha, hs, hfresh⟩
    have hc : (x.clients i).cpcb = some p := (hw.owned.holder p b i hb ha).1
    refine ⟨(hw.owned.port_iff i).mpr ?_, hfresh, ?_⟩
    · rw [← clients, hc]; simp
    · simp [EthernetServer.established, hc, hb, hs]

theorem toBool_of_slot {x : Acceptor} {e : EthernetClient} {i : Slot} (hs : e.cs = .slot i)
    (hg : e.generation = (x.clients i).generation)
    (he : EthernetServer.established x.clients x.world.net i = true) : (x.world.conn e).toBool = true := by
  simp only [clients] at hg he
  cases hc : (x.world.server.clients i).cpcb with
  | none => simp [EthernetServer.established, hc] at he
  | some p =>
    cases hb : x.world.net.pcbs p with
    | none => simp [EthernetServer.established, hc, hb] at he
    | some b =>
      have hst : b.state = .established := by simpa [EthernetServer.established, hc, hb] using he
      simp [Conn.toBool, Conn.status, Conn.stale, Conn.cs, World.conn, hs, hg, hc, hb, hst]

theorem toBool_of_own {x : Acceptor} {e : EthernetClient} (hs : e.cs = .own) (hc : e.clientState.cpcb = none) :
    (x.world.conn e).toBool = false := by
  simp [Conn.toBool, Conn.status, Conn.stale, Conn.cs, World.conn, hs, hc]

end Acceptor

theorem accept_hands_over_once (g : UInt16) (es : List AcceptEvent)
    (hl : acceptMachine.Legal (.initial g) es)
    (hu : (Machine.mk Acceptor.Undisturbed Acceptor.step).Legal (.initial g) es) :
    let x := acceptMachine.run (.initial g) es
    x.handed.Nodup ∧
    ((Machine.mk Acceptor.Marked Acceptor.step).Legal (.initial g) es → x.point = .idle →
      ∃ slots : List Slot, slots.Nodup ∧ (slots.map x.conn).Nodup ∧ (∀ i, i ∈ slots ↔ x.Waiting i) ∧
        ∀ ks : List (ObjId × Client), ks.length = slots.length + 1 →
          let y := acceptMachine.run x (ks.flatMap acceptCall)
          ∃ (hs : List (EthernetClient × Option ℕ)) (e : EthernetClient),
            y.point = .idle ∧ y.returned = x.returned ++ hs ++ [(e, none)] ∧
            hs.map (fun h => (h.1.cs, h.2)) = slots.map (fun i => (.slot i, x.conn i)) ∧
            (∀ h ∈ hs, (y.world.conn h.1).toBool = true) ∧ (y.world.conn e).toBool = false) := by
  intro x
  have honce : Acceptor.Once x :=
    Machine.invariant_under (fun y e he hu hy => hy.step he hu) (Acceptor.once_initial g) hl hu
  refine ⟨honce.nodup, fun hm hidle => ?_⟩
  have hsound : x.world.Sound :=
    Machine.invariant_under (M := acceptMachine) (I := fun y => y.world.Sound)
      (fun y e he hm hy => Acceptor.sound_acceptor hy he hm) (World.sound_initial g) hl hm
  refine ⟨x.claimable, x.claimable_nodup, ?_, Acceptor.mem_claimable_iff_waiting honce hsound hidle, ?_⟩
  · refine List.Nodup.map_on (fun i hi j hj heq => ?_) x.claimable_nodup
    obtain ⟨s, hs⟩ := Option.ne_none_iff_exists'.mp (honce.occupied i (.inl (Acceptor.mem_claimable.mp hi).1))
    exact honce.injective i j s hs (heq ▸ hs)
  · intro ks hk y
    obtain ⟨hxy, hpoint, hs, e, hret, hown, hnone, hmap⟩ := Acceptor.acceptCalls rfl hk
    refine ⟨hs, e, hpoint, hret, ?_, ?_, Acceptor.toBool_of_own hown hnone⟩
    · have := congrArg (List.map fun t => (t.1, t.2.2)) hmap
      simpa only [List.map_map, Function.comp_def] using this
    · intro h hh
      have hmem : (h.1.cs, h.1.generation, h.2) ∈ hs.map fun h => (h.1.cs, h.1.generation, h.2) :=
        List.mem_map_of_mem hh
      rw [hmap] at hmem
      obtain ⟨i, hi, heq⟩ := List.mem_map.mp hmem
      simp only [Prod.mk.injEq] at heq
      refine Acceptor.toBool_of_slot heq.1.symm (heq.2.1.symm.trans (hxy.slots.generation i).symm) ?_
      rw [Acceptor.established_of_steady hxy.slots, hxy.net]
      exact (Acceptor.mem_claimable.mp hi).2.2

/-- Two connections are waiting when the sketch calls `accept()`, and a third arrives during the call. -/
def acceptTrace : List AcceptEvent :=
  [.event (.accept 7 50000), .event (.accept 9 50001), .call 0 .zero, .advance .closed, .advance .closed,
    .event (.accept 8 50002), .advance .closed, .advance .closed, .advance .closed, .advance .closed,
    .advance .closed]

theorem accept_hands_over_once_of_three :
    let x := acceptMachine.run (.initial 0) acceptTrace
    acceptMachine.Legal (.initial 0) acceptTrace ∧ x.handed = [0] ∧ x.handed.Nodup ∧
      ∃ slots : List Slot, slots.Nodup ∧ ∀ i, i ∈ slots ↔ x.Waiting i := by
  intro x
  have hl : acceptMachine.Legal (.initial 0) acceptTrace :=
    ⟨⟨rfl, .inl rfl⟩, ⟨rfl, .inl rfl⟩, rfl, trivial, trivial, ⟨rfl, .inl rfl⟩, trivial, trivial, trivial,
      trivial, trivial, trivial⟩
  have hu : (Machine.mk Acceptor.Undisturbed Acceptor.step).Legal (.initial 0) acceptTrace :=
    ⟨fun _ _ => nofun, fun _ _ => nofun, trivial, trivial, trivial, fun _ _ => nofun, trivial, trivial, trivial,
      trivial, trivial, trivial⟩
  have hm : (Machine.mk Acceptor.Marked Acceptor.step).Legal (.initial 0) acceptTrace :=
    ⟨fun _ => by decide, fun _ => by decide, trivial, trivial, trivial, fun _ => by decide, trivial, trivial,
      trivial, trivial, trivial, trivial⟩
  obtain ⟨hnodup, hrest⟩ := accept_hands_over_once 0 acceptTrace hl hu
  obtain ⟨slots, hslots, -, hwait, -⟩ := hrest hm rfl
  exact ⟨hl, by decide, hnodup, slots, hslots, hwait⟩

def resetTrace : List AcceptEvent :=
  [.event (.accept 7 50000), .call 0 .zero, .advance .closed, .advance .closed, .advance .closed,
    .advance .closed, .advance .closed, .event (.error 7), .event (.accept 9 50001), .advance .closed,
    .advance .closed]

theorem accept_hands_over_twice :
    acceptMachine.Legal (.initial 0) (resetTrace ++ acceptCall (1, .zero)) ∧
      (acceptMachine.run (.initial 0) (resetTrace ++ acceptCall (1, .zero))).returned.map
        (fun h => (h.1.cs, h.1.generation, h.2)) = [(.slot 0, 2, some 1), (.slot 0, 2, some 1)] := by
  refine ⟨(Machine.legal_append _ _ _ _).mpr ⟨?_, Acceptor.acceptCall_legal rfl _⟩, by decide⟩
  exact ⟨⟨rfl, .inl rfl⟩, rfl, trivial, trivial, trivial, trivial, trivial, ⟨rfl, .inl rfl⟩, ⟨rfl, .inl rfl⟩,
    trivial, trivial, trivial⟩

end LogoCore.Ethernet
