import LogoCore.SlotCorrespondence
import Mathlib.Logic.Function.Iterate

namespace LogoCore.Ethernet

namespace EthernetServer

theorem nextGeneration_toNat (g : UInt16) :
    (nextGeneration g).toNat = if g.toNat = 65535 then 1 else g.toNat + 1 := by
  have hlt := g.toNat_lt
  have hadd : (g + 1).toNat = (g.toNat + 1) % 65536 := by simp [UInt16.toNat_add]
  have hzero : g + 1 = 0 ↔ (g + 1).toNat = 0 := by rw [← UInt16.toNat_inj]; rfl
  unfold nextGeneration
  split_ifs with h1 h2 h2
  · rfl
  · rw [hzero, hadd] at h1; omega
  · exact absurd (hzero.mpr (by rw [hadd, h2])) h1
  · rw [hadd]; omega

theorem toNat_pos {g : UInt16} (hg : g ≠ 0) : 0 < g.toNat := by
  rw [Nat.pos_iff_ne_zero]
  intro h
  exact hg (UInt16.toNat_inj.mp (by simpa using h))

theorem iterate_nextGeneration (g : UInt16) (hg : g ≠ 0) (m : ℕ) :
    (nextGeneration^[m] g).toNat = (g.toNat - 1 + m) % 65535 + 1 := by
  have hlt := g.toNat_lt
  have hpos := toNat_pos hg
  induction m with
  | zero =>
    have := Nat.mod_eq_of_lt (show g.toNat - 1 < 65535 by omega)
    simp only [Function.iterate_zero, id_eq]
    omega
  | succ m ih =>
    rw [Function.iterate_succ_apply', nextGeneration_toNat, ih]
    split_ifs <;> omega

theorem nextGeneration_ne_zero (g : UInt16) : nextGeneration g ≠ 0 := by
  intro h
  have := nextGeneration_toNat g
  rw [h] at this
  split_ifs at this
  · simp at this
  · simp at this

theorem iterate_nextGeneration_eq_iff (g : UInt16) (hg : g ≠ 0) (m : ℕ) :
    nextGeneration^[m] g = g ↔ 65535 ∣ m := by
  have hlt := g.toNat_lt
  have hpos := toNat_pos hg
  rw [← UInt16.toNat_inj, iterate_nextGeneration g hg]
  omega

end EthernetServer

def Stamped (c c' : Slots) : Prop :=
  ∀ i, (c' i).generation = (c i).generation ∧ ((c i).port = 0 → (c' i).port = 0)

theorem Stamped.refl (c : Slots) : Stamped c c := fun _ => ⟨rfl, id⟩

theorem Steady.stamped {c c' : Slots} (h : Steady c c') : Stamped c c' :=
  fun i => ⟨h.generation i, fun hp => (h.port i).trans hp⟩

theorem stamped_update (c : Slots) (i : Slot) (s : Client) (hg : s.generation = (c i).generation)
    (hp : s.port = (c i).port ∨ s.port = 0) : Stamped c (Function.update c i s) := by
  intro j
  by_cases hj : j = i
  · subst j
    rw [Function.update_self]
    exact ⟨hg, fun h => hp.elim (·.trans h) id⟩
  · simp [hj]

theorem stamped_setCs (c : Conn) (s : Client) (hg : s.generation = c.cs.generation)
    (hp : s.port = c.cs.port ∨ s.port = 0) : Stamped c.clients (c.setCs s).clients := by
  cases h : c.self.cs with
  | own => simp [Conn.setCs, h, Stamped.refl]
  | slot i =>
    simp only [Conn.cs, h] at hg hp
    simpa only [Conn.setCs, h] using stamped_update c.clients i s hg hp

theorem stamped_stop (c : Conn) (err : Err) : Stamped c.clients (c.stop err).clients := by
  have h := stamped_setCs c { c.cs with cpcb := none, p := [], port := 0 } rfl (.inr rfl)
  unfold Conn.stop
  split_ifs
  · exact .refl _
  · dsimp only
    split
    · exact h
    · exact h

theorem stamped_doClose (c : Slots) (n : Net) (arg : CallbackArg) (p : PcbPtr) (err : Err) :
    Stamped c (EthernetServer.doClose c n arg p err).1 := by
  unfold EthernetServer.doClose
  dsimp only
  split
  · split
    · exact .refl _
    · exact stamped_update _ _ _ rfl (.inr rfl)
  · exact .refl _

theorem stamped_doRecv (c : Slots) (n : Net) (arg : CallbackArg) (p : PcbPtr) (q : Chain) (err : Err) :
    Stamped c (EthernetServer.doRecv c n arg p q err).2.1 := by
  unfold EthernetServer.doRecv
  split_ifs
  · exact stamped_doClose c n arg p err
  · split
    · dsimp only
      split_ifs
      · exact .refl _
      · exact stamped_update _ _ _ rfl (.inl rfl)
      · exact stamped_update _ _ _ rfl (.inl rfl)
    · exact .refl _

theorem stamped_doErr (c : Slots) (n : Net) (arg : CallbackArg) :
    Stamped c (EthernetServer.doErr c n arg).1 := by
  unfold EthernetServer.doErr
  split
  · exact stamped_update _ _ _ rfl (.inr rfl)
  · exact .refl _

namespace World

def accepted (w : World) : Event → Option Slot
  | .accept _ _ => EthernetServer.freeSlot w.server.clients
  | _ => none

theorem step_unstamped {w : World} {e : Event} (h : w.accepted e = none) :
    Stamped w.server.clients (w.step e).server.clients ∧
      (w.step e).server.generation = w.server.generation := by
  cases e with
  | accept p port =>
    have hf : EthernetServer.freeSlot w.server.clients = none := h
    simp [step, accept, EthernetServer.doAccept, hf, Stamped.refl]
  | data p c =>
    cases hb : w.net.pcbs p with
    | none => simp [step, hb, Stamped.refl]
    | some b =>
      have hd := stamped_doRecv w.server.clients (w.net.receive p (Chain.totLen c)) b.callbackArg p c .ok
      simp only [step, hb, Option.elim_some, data]
      split <;> rename_i hr <;> rw [hr] at hd <;> exact ⟨hd, rfl⟩
  | fin p err =>
    cases hb : w.net.pcbs p with
    | none => simp [step, hb, Stamped.refl]
    | some b =>
      simp only [step, hb, Option.elim_some, fin]
      exact ⟨stamped_doRecv _ _ _ _ _ _, rfl⟩
  | error p =>
    cases hb : w.net.pcbs p with
    | none => simp [step, hb, Stamped.refl]
    | some b =>
      simp only [step, hb, Option.elim_some, error]
      exact ⟨stamped_doErr _ _ _, rfl⟩
  | poll p err =>
    cases hb : w.net.pcbs p with
    | none => simp [step, hb, Stamped.refl]
    | some b =>
      simp only [step, hb, Option.elim_some, poll]
      split_ifs <;> exact ⟨.refl _, rfl⟩
  | progress p state refused rcvWnd sndBuf => exact ⟨.refl _, rfl⟩
  | reap p => exact ⟨.refl _, rfl⟩
  | serverAccept k mem =>
    refine ⟨(EthernetServer.accept_steady w.server w.net mem).stamped, ?_⟩
    simp only [step, EthernetServer.accept]
    split <;> rfl
  | serverAvailable k mem =>
    exact ⟨(EthernetServer.available_steady w.server w.net mem).stamped, rfl⟩
  | serverWrite buf outcomes =>
    exact ⟨(EthernetServer.writeSlots_steady buf outcomes (List.finRange maxClients) 0
      w.server.clients w.net).1.stamped, rfl⟩
  | call k op =>
    cases hk : w.objs k with
    | none => simp [step, hk, Stamped.refl]
    | some e =>
      simp only [step, hk, Option.elim_some]
      refine ⟨?_, rfl⟩
      cases op with
      | read => exact (Conn.keeps_read (w.conn e)).slots.stamped
      | readBuf size => exact (Conn.keeps_readBuf (w.conn e) size).slots.stamped
      | write b outcomes => exact (Conn.keeps_write (w.conn e) _ outcomes).slots.stamped
      | writeBuf buf outcomes => exact (Conn.keeps_write (w.conn e) buf outcomes).slots.stamped
      | flush => exact (Conn.keeps_flush (w.conn e)).slots.stamped
      | stop err => exact stamped_stop (w.conn e) err
      | _ => exact .refl _
  | copy k k' => cases hk : w.objs k <;> simp [step, hk, Stamped.refl]
  | destroy k => exact ⟨.refl _, rfl⟩

theorem step_stamped {w : World} {e : Event} {i : Slot} (h : w.accepted e = some i) :
    (w.step e).server.generation = EthernetServer.nextGeneration w.server.generation ∧
      ((w.step e).server.clients i).generation = EthernetServer.nextGeneration w.server.generation ∧
      ∀ j, j ≠ i → (w.step e).server.clients j = w.server.clients j := by
  cases e with
  | accept p port =>
    obtain ⟨hc, hg, -, -⟩ := accept_free p port h
    simp only [step, hc, hg]
    exact ⟨trivial, by simp, fun j hj => by simp [hj]⟩
  | _ => simp [accepted] at h

end World

end LogoCore.Ethernet
