import LogoCore.HandleIdentity

namespace LogoCore.Ethernet

namespace World

theorem exists_connection {g : UInt16} {es : List Event} {i : Slot}
    (h : ((serverMachine.run (initial g) es).server.clients i).port ≠ 0) :
    ∃ as bs, (initial g).acceptedSlots es = as ++ i :: bs ∧ i ∉ bs := by
  apply exists_last_mem
  by_contra hi
  exact h ((run_not_accepted hi).2 rfl)

theorem stale_iff {w : World} {e : EthernetClient} {i : Slot} (he : e.cs = .slot i) :
    (w.conn e).stale = true ↔ (w.server.clients i).generation ≠ e.generation := by
  simp [Conn.stale, Conn.cs, conn, he]

theorem generation_ne_iff {w : World} {es : List Event} {i : Slot} {as cs : List Slot}
    (h : w.acceptedSlots es = as ++ i :: cs) (hlt : cs.length < 65535) :
    ((serverMachine.run w es).server.clients i).generation ≠
      EthernetServer.nextGeneration^[as.length + 1] w.server.generation ↔ i ∈ cs := by
  by_cases hi : i ∈ cs
  · obtain ⟨ds, bs, rfl, hbs⟩ := exists_last_mem hi
    have hlast : w.acceptedSlots es = (as ++ i :: ds) ++ i :: bs := by simp [h]
    have hsum : (as ++ i :: ds).length + 1 = (ds.length + 1) + (as.length + 1) := by
      simp only [List.length_append, List.length_cons]
      omega
    rw [run_last_accepted hlast hbs, hsum, Function.iterate_add_apply, Function.iterate_succ_apply' _ as.length]
    refine iff_of_true (fun heq => ?_) hi
    rw [EthernetServer.iterate_nextGeneration_eq_iff _ (EthernetServer.nextGeneration_ne_zero _)] at heq
    have := Nat.le_of_dvd (by omega) heq
    simp only [List.length_append, List.length_cons] at hlt
    omega
  · rw [run_last_accepted h hi]
    simp [hi]

def recycle : List Event := [.error 0, .accept 0 2]

def Occupied (w : World) : Prop := ∃ b, w.net.pcbs 0 = some b ∧ b.callbackArg = .slot 0

theorem recycle_step {w : World} (h : w.Occupied) :
    serverMachine.Legal w recycle ∧ w.acceptedSlots recycle = [0] ∧
      (serverMachine.run w recycle).Occupied ∧ (serverMachine.run w recycle).objs = w.objs ∧
      ((serverMachine.run w recycle).server.clients 0).port = 2 := by
  obtain ⟨b, hb, ha⟩ := h
  let w' := w.step (.error 0)
  have hpcb : w'.net.pcbs 0 = none := by
    simp [w', step, hb, error, setClients, Net.free]
  have hobj : w'.objs = w.objs := by
    simp [w', step, hb, error, setClients]
  have hfree : EthernetServer.freeSlot w'.server.clients = some 0 := by
    have hp : (w'.server.clients 0).port = 0 := by
      simp [w', step, hb, error, setClients, EthernetServer.doErr, ha]
    rw [EthernetServer.freeSlot, List.finRange_succ]
    exact List.find?_cons_of_pos (by simpa using hp)
  obtain ⟨hc, -, hn, ho⟩ := accept_free 0 2 hfree
  have hrun : serverMachine.run w recycle = w'.accept 0 2 := rfl
  have hacc : w.acceptedSlots recycle = (w'.accepted (.accept 0 2)).toList := by
    simp [recycle, acceptedSlots, accepted, w']
  rw [hrun, hacc]
  refine ⟨⟨by simp [serverMachine, Enabled, hb], hpcb, trivial⟩, by simp [accepted, hfree], ?_, ?_, ?_⟩
  · exact ⟨_, by rw [hn, Function.update_self], rfl⟩
  · rw [ho, hobj]
  · rw [hc, Function.update_self]

theorem recycle_run {w : World} (h : w.Occupied) (n : ℕ) :
    let fs := (List.replicate n recycle).flatten
    serverMachine.Legal w fs ∧ w.acceptedSlots fs = List.replicate n 0 ∧
      (serverMachine.run w fs).objs = w.objs ∧
      (0 < n → ((serverMachine.run w fs).server.clients 0).port = 2) ∧ (serverMachine.run w fs).Occupied := by
  induction n with
  | zero => exact ⟨trivial, rfl, rfl, fun h => absurd h (by simp), h⟩
  | succ n ih =>
    obtain ⟨hl, hs, ho, -, hocc⟩ := ih
    obtain ⟨hl', hs', hocc', ho', hp'⟩ := recycle_step hocc
    simp only [List.replicate_succ', List.flatten_append, List.flatten_singleton, Machine.legal_append,
      acceptedSlots_append, Machine.run_append]
    exact ⟨⟨hl, hl'⟩, by rw [hs, hs'], ho'.trans ho, fun _ => hp', hocc'⟩

theorem stale_iff_later {g : UInt16} {es fs : List Event} {ev : Event} {k k' : ObjId} {i : Slot}
    {as bs further : List Slot} (hiss : (serverMachine.run (.initial g) es).Issues ev k i)
    (hslots : (initial g).acceptedSlots es = as ++ i :: bs) (hbs : i ∉ bs)
    (hfur : (initial g).acceptedSlots (es ++ ev :: fs) = as ++ i :: further)
    (hlt : further.length < 65535) (hk : copies k fs k' = true) :
    let w := serverMachine.run (.initial g) (es ++ ev :: fs)
    ∃ e, w.objs k' = some e ∧ ((w.conn e).stale = true ↔ i ∈ further) := by
  intro w
  have hholds := holds_run hiss.holds.1 fs
  rw [run_last_accepted hslots hbs] at hholds
  have hw : w = serverMachine.run ((serverMachine.run (.initial g) es).step ev) fs := by
    simp [w, Machine.run_append]
  rw [← hw] at hholds
  obtain ⟨e, he, hcs, hstamp⟩ := hholds k' hk
  refine ⟨e, he, ?_⟩
  rw [stale_iff hcs, hstamp]
  exact generation_ne_iff hfur hlt

def replaced (n : ℕ) : List Event :=
  [.accept 0 1] ++ .serverAccept 0 .zero :: (List.replicate n recycle).flatten

theorem replaced_run (g : UInt16) (n : ℕ) (hn : 0 < n) :
    let w := serverMachine.run (.initial g) (replaced n)
    serverMachine.Legal (.initial g) (replaced n) ∧
      (initial g).acceptedSlots (replaced n) = [] ++ 0 :: List.replicate n 0 ∧
      w.objs 0 = some ⟨.zero, true, .slot 0, EthernetServer.nextGeneration g⟩ ∧
      (w.server.clients 0).port = 2 := by
  intro w
  have hocc : (serverMachine.run (.initial g) [.accept 0 1, .serverAccept 0 .zero]).Occupied :=
    ⟨_, rfl, rfl⟩
  obtain ⟨hl, hs, ho, hp, -⟩ := recycle_run hocc n
  refine ⟨⟨rfl, trivial, hl⟩, congrArg (List.cons 0) hs, (congrFun ho 0).trans rfl, hp hn⟩

theorem replaced_generation (g : UInt16) (n : ℕ) (hn : 0 < n) (hdvd : 65535 ∣ n) :
    ((serverMachine.run (.initial g) (replaced n)).server.clients 0).generation =
      EthernetServer.nextGeneration g := by
  have hlast : (initial g).acceptedSlots (replaced n) = List.replicate n 0 ++ 0 :: [] := by
    rw [(replaced_run g n hn).2.1, List.nil_append, ← List.replicate_succ, List.replicate_succ']
  rw [run_last_accepted hlast (by simp), List.length_replicate, Function.iterate_succ_apply]
  exact (EthernetServer.iterate_nextGeneration_eq_iff _ (EthernetServer.nextGeneration_ne_zero g) n).mpr hdvd

end World

theorem stale_detection_exact :
    (∀ g es ev k i, (serverMachine.run (.initial g) es).Issues ev k i →
      ∃ as bs, (World.initial g).acceptedSlots es = as ++ i :: bs ∧ i ∉ bs ∧
        ∀ fs further, (World.initial g).acceptedSlots (es ++ ev :: fs) = as ++ i :: further →
          further.length < 65535 → ∀ k', copies k fs k' = true →
            let w := serverMachine.run (.initial g) (es ++ ev :: fs)
            ∃ e, w.objs k' = some e ∧ ((w.conn e).stale = true ↔ i ∈ further)) ∧
    ∀ g, ∃ es ev k i fs as bs further,
      serverMachine.Legal (.initial g) (es ++ ev :: fs) ∧ (serverMachine.run (.initial g) es).Issues ev k i ∧
      (World.initial g).acceptedSlots es = as ++ i :: bs ∧ i ∉ bs ∧
      (World.initial g).acceptedSlots (es ++ ev :: fs) = as ++ i :: further ∧
      further.length = 65535 ∧ i ∈ further ∧
      let w := serverMachine.run (.initial g) (es ++ ev :: fs)
      ((serverMachine.run (.initial g) es).server.clients i).port ≠ (w.server.clients i).port ∧
      ∃ e, w.objs k = some e ∧ e.cs = .slot i ∧ (w.conn e).stale = false := by
  refine ⟨?_, ?_⟩
  · intro g es ev k i hiss
    obtain ⟨as, bs, hslots, hbs⟩ := World.exists_connection hiss.holds.2.1
    refine ⟨as, bs, hslots, hbs, ?_⟩
    intro fs further hfur hlt k' hk'
    exact World.stale_iff_later hiss hslots hbs hfur hlt hk'
  · intro g
    -- The length stays a variable so that no run of that length is ever evaluated.
    obtain ⟨n, hn⟩ : ∃ n : ℕ, n = 65535 := ⟨_, rfl⟩
    have hpos : 0 < n := by omega
    obtain ⟨hl, hs, ho, hp⟩ := World.replaced_run g n hpos
    have hg := World.replaced_generation g n hpos (dvd_of_eq hn.symm)
    have hport : ((serverMachine.run (.initial g) [.accept 0 1]).server.clients 0).port = 1 := rfl
    refine ⟨[.accept 0 1], .serverAccept 0 .zero, 0, 0, (List.replicate n World.recycle).flatten, [], [],
      List.replicate n 0, hl, ⟨.zero, .inl ⟨rfl, rfl⟩⟩, rfl, by simp, hs, by simpa using hn,
      List.mem_replicate.mpr ⟨hpos.ne', rfl⟩, ?_, _, ho, rfl, ?_⟩
    · rw [hport]
      exact fun h => absurd (h.trans hp) (by decide)
    · rw [← Bool.not_eq_true, World.stale_iff rfl, not_not]
      exact hg

theorem stale_detection_exact_recycled :
    let w := serverMachine.run (.initial 65535)
      ([.accept 7 50000] ++ .serverAccept 0 .zero :: [.copy 0 1, .error 7, .accept 9 50001])
    ∃ e, w.objs 1 = some e ∧ ((w.conn e).stale = true ↔ (0 : Slot) ∈ ([0] : List Slot)) := by
  obtain ⟨as, bs, hs, -, h⟩ :=
    stale_detection_exact.1 65535 [.accept 7 50000] (.serverAccept 0 .zero) 0 0 ⟨.zero, .inl ⟨rfl, rfl⟩⟩
  have hone : (World.initial 65535).acceptedSlots [.accept 7 50000] = [0] := rfl
  obtain rfl : as = [] := by
    rw [hone] at hs
    cases as <;> simp_all
  exact h [.copy 0 1, .error 7, .accept 9 50001] [0] rfl (by decide) 1 rfl

end LogoCore.Ethernet
