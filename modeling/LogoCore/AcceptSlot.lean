import LogoCore.SlotCorrespondence

namespace LogoCore.Ethernet

namespace World

/-- What `do_accept` owes the connections that are there when it takes on a new one. -/
def AcceptSafe (w : World) (p : PcbPtr) (port : UInt16) : Prop :=
  ∀ i, EthernetServer.freeSlot w.server.clients = some i →
    (∀ q, (w.server.clients i).cpcb = some q → w.net.pcbs q = none) ∧
    (∀ q b j, w.net.pcbs q = some b → b.callbackArg = .slot j →
      ((w.accept p port).server.clients j).cpcb = some q ∧
      ((w.accept p port).server.clients j).p = (w.server.clients j).p ∧
      ((w.accept p port).server.clients j).read = (w.server.clients j).read) ∧
    ((w.accept p port).server.clients i).port ≠ 0

theorem acceptSafe_of_sound {w : World} (h : Sound w) {p : PcbPtr} {port : UInt16}
    (hm : w.Marked (.accept p port)) : w.AcceptSafe p port := by
  intro i hf
  have hfree := h.owned.cpcb_eq_none (EthernetServer.freeSlot_port hf)
  have hc := (accept_free p port hf).1
  refine ⟨fun q hq => by simp [hfree] at hq, ?_, ?_⟩
  · intro q b j hb ha
    have hj := (h.owned.holder q b j hb ha).1
    have hne : j ≠ i := by rintro rfl; simp [hfree] at hj
    rw [hc, Function.update_of_ne hne]
    exact ⟨hj, rfl, rfl⟩
  · rw [hc, Function.update_self]
    exact hm (by simp [hf])

theorem marked_of_acceptSafe {w : World} {p : PcbPtr} {port : UInt16} (h : w.AcceptSafe p port) :
    w.Marked (.accept p port) := by
  intro hf
  obtain ⟨i, hi⟩ := Option.ne_none_iff_exists'.mp hf
  have hp := (h i hi).2.2
  rwa [(accept_free p port hi).1, Function.update_self] at hp

end World

theorem accept_never_evicts_iff (g : UInt16) (es : List Event)
    (hl : serverMachine.Legal (.initial g) es) :
    (∀ fs p port gs, es = fs ++ Event.accept p port :: gs →
      (serverMachine.run (.initial g) fs).AcceptSafe p port) ↔
    ∀ fs p port gs, es = fs ++ Event.accept p port :: gs →
      EthernetServer.freeSlot (serverMachine.run (.initial g) fs).server.clients ≠ none → port ≠ 0 := by
  constructor
  · intro h fs p port gs he
    exact World.marked_of_acceptSafe (h fs p port gs he)
  · intro h fs p port gs he
    have hm : markedMachine.Legal (.initial g) fs := by
      subst he
      rw [Machine.legal_append] at hl
      have hmarked : ∀ as e bs, fs = as ++ e :: bs → (serverMachine.run (.initial g) as).Marked e := by
        intro as e bs hfs
        cases e with
        | accept q r => exact h as q r (bs ++ Event.accept p port :: gs) (by simp [hfs])
        | _ => trivial
      exact Machine.legal_and hl.1 hmarked
    exact World.acceptSafe_of_sound (sound_run hm) (h fs p port gs he)

theorem accept_never_evicts_two_connections :
    serverMachine.Legal (.initial 0) [.accept 7 50000, .accept 9 50000] ∧
      (serverMachine.run (.initial 0) [.accept 7 50000]).AcceptSafe 9 50000 := by
  have hl : serverMachine.Legal (.initial 0) [.accept 7 50000, .accept 9 50000] := ⟨rfl, rfl, trivial⟩
  refine ⟨hl, (accept_never_evicts_iff 0 _ hl).mpr ?_ [.accept 7 50000] 9 50000 [] rfl⟩
  intro fs p port gs he _
  have hmem : Event.accept p port ∈ ([.accept 7 50000, .accept 9 50000] : List Event) := by simp [he]
  simp only [List.mem_cons, Event.accept.injEq, List.not_mem_nil, or_false] at hmem
  rcases hmem with ⟨-, rfl⟩ | ⟨-, rfl⟩ <;> decide

/-- The connection from port zero is live in slot 0, which the next connection takes over. -/
theorem accept_evicts_port_zero :
    serverMachine.Legal (.initial 0) [.accept 7 0, .accept 9 50000] ∧
      ¬ (serverMachine.run (.initial 0) [.accept 7 0]).AcceptSafe 9 50000 := by
  refine ⟨⟨rfl, rfl, trivial⟩, fun h => ?_⟩
  have h7 := (h 0 rfl).2.1 7 _ 0 rfl rfl
  exact absurd h7.1 (by decide)

end LogoCore.Ethernet
