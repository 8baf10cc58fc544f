import LogoCore.SlotOwnership

namespace LogoCore.Ethernet

namespace EthernetServer

theorem freeSlot_port {clients : Slots} {i : Slot} (h : freeSlot clients = some i) :
    (clients i).port = 0 := by
  simpa using List.find?_some h

theorem handle_steady (clients : Slots) (mem : Client) (o : Option Slot) :
    Steady clients (handle clients mem o).2 := by
  cases o with
  | none => exact .refl _
  | some i => exact steady_update _ _ _ rfl rfl rfl fun _ h => h

theorem handle_own (clients : Slots) (mem : Client) (o : Option Slot)
    (h : (handle clients mem o).1.cs = .own) :
    (handle clients mem o).1.clientState.cpcb = none ∧ (handle clients mem o).1.clientState.p = [] := by
  cases o with
  | none => exact ⟨rfl, rfl⟩
  | some i => simp [handle] at h

theorem available_steady (s : EthernetServer) (net : Net) (mem : Client) :
    Steady s.clients (s.available net mem).2.clients := handle_steady _ _ _

theorem accept_steady (s : EthernetServer) (net : Net) (mem : Client) :
    Steady s.clients (s.accept net mem).2.clients := by
  unfold accept
  split
  · exact .refl _
  · rename_i i _
    have hi : Steady s.clients (Function.update s.clients i { s.clients i with claimed := true }) :=
      steady_update _ _ _ rfl rfl rfl fun _ h => h
    exact hi.trans (handle_steady _ mem (some i))

theorem accept_own (s : EthernetServer) (net : Net) (mem : Client)
    (h : (s.accept net mem).1.cs = .own) :
    (s.accept net mem).1.clientState.cpcb = none ∧ (s.accept net mem).1.clientState.p = [] := by
  unfold accept at h ⊢
  split at h
  · exact ⟨rfl, rfl⟩
  · simp [handle] at h

theorem writeSlots_steady (buf : List UInt8) (outcomes : Slot → List Err) (is : List Slot) (k : ℕ)
    (clients : Slots) (net : Net) :
    Steady clients (writeSlots buf outcomes is k clients net).2.1 ∧
      Net.Quiet net (writeSlots buf outcomes is k clients net).2.2 := by
  induction is generalizing k clients net with
  | nil => exact ⟨.refl _, .refl _⟩
  | cons i is ih =>
    unfold writeSlots
    split_ifs
    · have hh := handle_steady clients .zero (some i)
      have hw := Conn.keeps_write ⟨(handle clients .zero (some i)).1, (handle clients .zero (some i)).2, net⟩
        buf (outcomes i)
      dsimp only
      split <;> rename_i he <;> rw [he] at hw
      · exact ⟨hh.trans hw.slots, hw.net⟩
      · obtain ⟨hs, hn⟩ := ih (k + _) _ _
        exact ⟨(hh.trans hw.slots).trans hs, hw.net.trans hn⟩
    · exact ih k clients net

end EthernetServer

namespace World

structure Sound (w : World) : Prop where
  owned : Owned w.server.clients w.net
  handles : ∀ h e, w.objs h = some e → e.cs = .own → e.clientState.cpcb = none ∧ e.clientState.p = []

theorem sound_initial (g : UInt16) : Sound (initial g) := by
  refine ⟨⟨?_, ?_, ?_, ?_, ?_, ?_⟩, ?_⟩ <;> simp [initial, EthernetServer.fresh, Client.zero]

theorem Sound.setClients {w : World} (h : Sound w) {x : Slots × Net} (hx : Owned x.1 x.2) :
    Sound (w.setClients x) := ⟨hx, h.handles⟩

theorem Sound.setObj {w : World} (h : Sound w) (k : ObjId) (o : Option EthernetClient)
    (ho : ∀ e, o = some e → e.cs = .own → e.clientState.cpcb = none ∧ e.clientState.p = []) :
    Sound { w with objs := Function.update w.objs k o } := by
  refine ⟨h.owned, fun j e he hc => ?_⟩
  by_cases hj : j = k
  · subst j; exact ho e (by simpa using he) hc
  · exact h.handles j e (by simpa [hj] using he) hc

def Marked (w : World) : Event → Prop
  | .accept _ port => EthernetServer.freeSlot w.server.clients ≠ none → port ≠ 0
  | _ => True

theorem accept_full {w : World} {p : PcbPtr} {port : UInt16}
    (hf : EthernetServer.freeSlot w.server.clients = none) (hp : w.net.pcbs p = none) :
    w.accept p port = w := by
  have hu : Function.update w.net.pcbs p none = w.net.pcbs := by
    rw [← hp]; exact Function.update_eq_self p w.net.pcbs
  simp only [accept, EthernetServer.doAccept, hf, Net.free, Function.update_idem, hu]

theorem accept_free {w : World} (p : PcbPtr) (port : UInt16) {i : Slot}
    (hf : EthernetServer.freeSlot w.server.clients = some i) :
    (w.accept p port).server.clients = Function.update w.server.clients i
        { Client.zero with
          generation := EthernetServer.nextGeneration w.server.generation, cpcb := some p, port := port } ∧
      (w.accept p port).server.generation = EthernetServer.nextGeneration w.server.generation ∧
      (w.accept p port).net.pcbs = Function.update w.net.pcbs p (some { acceptedPcb port with
        callbackArg := .slot i, recv := some .doRecv, sent := some .didSent, errf := some .doErr }) ∧
      (w.accept p port).objs = w.objs := by
  simp [accept, EthernetServer.doAccept, hf, Net.tcpArg, Net.tcpRecv, Net.tcpSent, Net.tcpErr,
    Net.record, Net.modify, acceptedPcb]

theorem sound_accept {w : World} (h : Sound w) {p : PcbPtr} {port : UInt16} (hp : w.net.pcbs p = none)
    (hm : w.Marked (.accept p port)) : Sound (w.accept p port) := by
  cases hf : EthernetServer.freeSlot w.server.clients with
  | none => rwa [accept_full hf hp]
  | some i =>
    obtain ⟨hc, -, hn, ho⟩ := accept_free p port hf
    refine ⟨?_, by rw [ho]; exact h.handles⟩
    rw [hc]
    exact h.owned.bound (EthernetServer.freeSlot_port hf) hp hn rfl ⟨rfl, rfl⟩ rfl rfl (hm (by simp [hf]))

theorem sound_data {w : World} (h : Sound w) {p : PcbPtr} {b : Pcb} {c : Chain}
    (hb : w.net.pcbs p = some b) (hc : c ≠ []) : Sound (w.data p b c) := by
  have hq : Net.Quiet w.net (w.net.receive p (Chain.totLen c)) :=
    Net.quiet_modify _ _ _ fun _ => ⟨rfl, rfl, rfl⟩
  have href (n : Net) : Net.Quiet n (n.modify p fun b => { b with refusedData := true }) :=
    Net.quiet_modify _ _ _ fun _ => ⟨rfl, rfl, rfl⟩
  have hmem (n : Net) (hn : Net.Quiet w.net n) : Sound (w.setClients (w.server.clients, n)) :=
    h.setClients (h.owned.steady (.refl _) hn)
  unfold data EthernetServer.doRecv
  simp only [hc, ↓reduceIte]
  cases ha : b.callbackArg with
  | slot i =>
    have hi := (h.owned.holder p b i hb ha).1
    simp only [hi, ne_eq, not_true_eq_false, ↓reduceIte]
    split_ifs
    · exact h.setClients (h.owned.steady (steady_update _ _ _ hi.symm rfl rfl fun hn => by simp [hi] at hn) hq)
    · exact h.setClients (h.owned.steady (steady_update _ _ _ hi.symm rfl rfl fun hn => by simp [hi] at hn)
        (hq.trans (Net.quiet_record _ _)))
  | null => exact hmem _ (hq.trans (href _))
  | server => exact hmem _ (hq.trans (href _))
  | client k => exact hmem _ (hq.trans (href _))

theorem doClose_released {c : Slots} {n : Net} {i : Slot} {p : PcbPtr} (fin : Err)
    (hi : (c i).cpcb = some p) :
    Released i p c (EthernetServer.doClose c n (.slot i) p fin).1 n
      (EthernetServer.doClose c n (.slot i) p fin).2 := by
  have h := (Net.detached_doClose p n).local (Net.local_closing p _ (c i).p fin (some .doPoll))
  simp only [EthernetServer.doClose, hi, ne_eq, not_true_eq_false, ↓reduceIte]
  exact ⟨hi, fun j hj => by simp [hj], by simp, by simp, by simp, by simp, h⟩

theorem sound_detached {w : World} (h : Sound w) {p : PcbPtr} {n : Net}
    (hp : ∀ b i, w.net.pcbs p = some b → b.callbackArg ≠ .slot i) (hn : Net.Detached p w.net n) :
    Sound (w.setClients (w.server.clients, n)) := by
  refine h.setClients (h.owned.loose hp hn.1 fun b hb => ?_)
  obtain ⟨ha, hr, -⟩ := hn.2 b hb
  simp [ha, hr]

theorem sound_fin {w : World} (h : Sound w) {p : PcbPtr} {b : Pcb} (err : Err)
    (hb : w.net.pcbs p = some b) : Sound (w.fin p b err) := by
  have hl : Net.Local p w.net (w.net.receiveFin p) := Net.local_modify p _ _ fun b => by split_ifs <;> rfl
  unfold fin EthernetServer.doRecv
  simp only [↓reduceIte]
  have hloose (ha : ∀ i, b.callbackArg ≠ .slot i) : ∀ a i, w.net.pcbs p = some a → a.callbackArg ≠ .slot i := by
    intro a i hpa
    obtain rfl : b = a := Option.some.inj (hb.symm.trans hpa)
    exact ha i
  cases ha : b.callbackArg with
  | slot i =>
    have hr := doClose_released (n := w.net.receiveFin p) err (h.owned.holder p b i hb ha).1
    exact h.setClients (h.owned.released { hr with net := hl.detached hr.net })
  | null => exact sound_detached h (hloose (by simp [ha])) (hl.detached (Net.detached_doClose p _))
  | server => exact sound_detached h (hloose (by simp [ha])) (hl.detached (Net.detached_doClose p _))
  | client k => exact sound_detached h (hloose (by simp [ha])) (hl.detached (Net.detached_doClose p _))

theorem sound_error {w : World} (h : Sound w) {p : PcbPtr} {b : Pcb} (hb : w.net.pcbs p = some b) :
    Sound (w.error p b) := by
  unfold error EthernetServer.doErr
  have hfree (ha : ∀ i, b.callbackArg ≠ .slot i) : Sound (w.setClients (w.server.clients, w.net.free p)) := by
    refine sound_detached h (fun a i hpa => ?_) (Net.detached_free p _)
    obtain rfl : b = a := Option.some.inj (hb.symm.trans hpa)
    exact ha i
  cases ha : b.callbackArg with
  | slot i =>
    have hi := (h.owned.holder p b i hb ha).1
    refine h.setClients (h.owned.released (i := i) (p := p) ⟨hi, fun j hj => by simp [hj], by simp, by simp,
      by simp, by simp, ?_⟩)
    dsimp only
    split_ifs
    · exact Net.detached_free p _
    · exact (Net.local_record p _ _).detached (Net.detached_free p _)
  | null => exact hfree (by simp [ha])
  | server => exact hfree (by simp [ha])
  | client k => exact hfree (by simp [ha])

theorem sound_poll {w : World} (h : Sound w) {p : PcbPtr} {b : Pcb} (err : Err)
    (hb : w.net.pcbs p = some b) : Sound (w.poll p b err) := by
  have hclose (hpoll : b.poll ≠ none) (n : Net) (hl : Net.Local p w.net n) :
      Sound (w.setClients (w.server.clients, n)) := by
    -- a control block that polls was closed, so no slot holds it and lwIP may change it freely
    have ha : ∀ i, b.callbackArg ≠ .slot i := fun i hi => hpoll (h.owned.opened p b i hb hi).2
    have hr : b.recv ≠ some .doRecv := fun hr => by
      obtain ⟨i, hi⟩ := h.owned.registered p b hb hr
      exact ha i hi
    refine h.setClients (h.owned.loose (fun a i hpa => ?_) hl.1 fun a hpa => ?_)
    · obtain rfl : b = a := Option.some.inj (hb.symm.trans hpa)
      exact ha i
    · obtain ⟨a', ha', hbind⟩ := hl.2 a hpa
      obtain rfl : b = a' := Option.some.inj (hb.symm.trans ha')
      simp only [Pcb.binding, Binding.mk.injEq] at hbind
      rw [← hbind.2.1, ← hbind.2.2.1]
      exact ⟨ha, hr⟩
  unfold poll EthernetServer.doPoll
  split_ifs with h1 h2
  · dsimp only
    split_ifs
    · exact hclose (by simp [h1]) _ (Net.local_tcpClose p _ _)
    · exact hclose (by simp [h1]) _ ((Net.local_tcpClose p _ _).trans (Net.local_tcpPoll p _ _))
  · dsimp only
    split_ifs
    · exact hclose (by simp [h2]) _ (Net.local_tcpClose p _ _)
    · exact hclose (by simp [h2]) _ ((Net.local_tcpClose p _ _).trans (Net.local_tcpPoll p _ _))
  · exact h

theorem sound_put {w : World} (h : Sound w) {k : ObjId} {e : EthernetClient} (he : w.objs k = some e)
    {d : Conn} (hd : Conn.Keeps (w.conn e) d) : Sound (w.put k d) := by
  refine (h.setClients (x := (d.clients, d.net)) (h.owned.steady hd.slots hd.net)).setObj k (some d.self)
    fun e' he' hc => ?_
  cases he'
  have hown := h.handles k e he (hd.ptr.symm.trans hc)
  exact hd.own hown.1 hown.2

theorem sound_stop {w : World} (h : Sound w) {k : ObjId} {e : EthernetClient} (he : w.objs k = some e)
    (err : Err) : Sound (w.put k ((w.conn e).stop err)) := by
  by_cases hs : (w.conn e).stale = true
  · exact sound_put h he (Conn.keeps_stop _ err (.inl hs))
  cases hptr : e.cs with
  | own =>
    -- `port` of the handle's own storage is not recorded anywhere, so the general lemma does not apply
    obtain ⟨hc, hp⟩ := h.handles k e he hptr
    refine ⟨?_, ?_⟩
    · simpa [put, conn, Conn.stop, Conn.cs, Conn.setCs, Conn.setConnected, setClients, hs, hptr, hc,
        Conn.stale] using h.owned
    · refine (h.setObj k (some ((w.conn e).stop err).self) fun e' he' _ => ?_).handles
      cases he'
      simp [conn, Conn.stop, Conn.cs, Conn.setCs, Conn.setConnected, hptr, hc, Conn.stale]
  | slot i =>
    cases hc : (w.server.clients i).cpcb with
    | none =>
      refine sound_put h he (Conn.keeps_stop _ err (.inr ?_))
      simpa [Conn.cs, conn, hptr, hc] using h.owned.port_eq_zero hc
    | some p =>
      obtain ⟨hr, hself⟩ := Conn.stop_released (w.conn e) err i p (by simpa using hs) hptr hc
      refine (h.setClients (x := (_, _)) (h.owned.released hr)).setObj k _ fun e' he' hown => ?_
      cases he'
      rw [hself] at hown
      simp [conn, hptr] at hown

theorem sound_step {w : World} {e : Event} (h : Sound w) (he : w.Enabled e) (hm : w.Marked e) :
    Sound (w.step e) := by
  cases e with
  | accept p port => exact sound_accept h he hm
  | data p c =>
    obtain ⟨b, hb⟩ := Option.isSome_iff_exists.mp he.1
    simpa [step, hb] using sound_data h hb he.2
  | fin p err =>
    obtain ⟨b, hb⟩ := Option.isSome_iff_exists.mp he
    simpa [step, hb] using sound_fin h err hb
  | error p =>
    obtain ⟨b, hb⟩ := Option.isSome_iff_exists.mp he
    simpa [step, hb] using sound_error h hb
  | poll p err =>
    obtain ⟨b, hb⟩ := Option.isSome_iff_exists.mp he
    simpa [step, hb] using sound_poll h err hb
  | progress p state refused rcvWnd sndBuf =>
    exact ⟨h.owned.steady (.refl _) (Net.quiet_modify _ _ _ fun _ => ⟨rfl, rfl, rfl⟩), h.handles⟩
  | reap p =>
    obtain ⟨b, hb, hrx⟩ := he
    refine sound_detached h (fun a i ha hi => ?_) (Net.detached_free p _)
    obtain rfl : b = a := Option.some.inj (hb.symm.trans ha)
    simp [(h.owned.opened p b i ha hi).1] at hrx
  | serverAccept k mem =>
    have ho : Sound { w with server := (w.server.accept w.net mem).2 } :=
      ⟨h.owned.steady (EthernetServer.accept_steady _ _ _) (.refl _), h.handles⟩
    exact ho.setObj k _ fun e he => by cases he; exact EthernetServer.accept_own _ _ _
  | serverAvailable k mem =>
    have ho : Sound { w with server := (w.server.available w.net mem).2 } :=
      ⟨h.owned.steady (EthernetServer.available_steady _ _ _) (.refl _), h.handles⟩
    exact ho.setObj k _ fun e he => by cases he; exact EthernetServer.handle_own _ _ _
  | serverWrite buf outcomes =>
    obtain ⟨hs, hn⟩ := EthernetServer.writeSlots_steady buf outcomes (List.finRange maxClients) 0
      w.server.clients w.net
    exact h.setClients (h.owned.steady hs hn)
  | call k op =>
    cases hk : w.objs k with
    | none => simpa [step, hk] using h
    | some e =>
      simp only [step, hk, Option.elim_some]
      cases op with
      | read => exact sound_put h hk (Conn.keeps_read _)
      | readBuf size => exact sound_put h hk (Conn.keeps_readBuf _ size)
      | write b outcomes => exact sound_put h hk (Conn.keeps_write _ _ outcomes)
      | writeBuf buf outcomes => exact sound_put h hk (Conn.keeps_write _ buf outcomes)
      | flush => exact sound_put h hk (Conn.keeps_flush _)
      | stop err => exact sound_stop h hk err
      | _ => exact sound_put h hk (.refl _)
  | copy k k' =>
    cases hk : w.objs k with
    | none => simpa [step, hk] using h
    | some e =>
      simp only [step, hk, Option.elim_some]
      exact h.setObj k' (some e) fun e' he' hc => by cases he'; exact h.handles k e hk hc
  | destroy k => exact h.setObj k none fun e he => by cases he

end World

def markedMachine : Machine World Event := ⟨fun w e => w.Enabled e ∧ w.Marked e, World.step⟩

theorem sound_run {g : UInt16} {es : List Event} (hl : markedMachine.Legal (.initial g) es) :
    World.Sound (markedMachine.run (.initial g) es) :=
  Machine.invariant (M := markedMachine) (I := World.Sound)
    (fun _ _ he h => World.sound_step h he.1 he.2) (World.sound_initial g) hl

theorem slot_correspondence (g : UInt16) (es : List Event) (hl : serverMachine.Legal (.initial g) es)
    (hport : ∀ p port, Event.accept p port ∈ es → port ≠ 0) :
    let w := serverMachine.run (.initial g) es
    (∀ p b i, w.net.pcbs p = some b → b.callbackArg = .slot i →
      (w.server.clients i).cpcb = some p ∧ (w.server.clients i).port = b.remotePort) ∧
    (∀ p b q a i, w.net.pcbs p = some b → b.callbackArg = .slot i → w.net.pcbs q = some a →
      a.callbackArg = .slot i → p = q) ∧
    (∀ i, (w.server.clients i).port ≠ 0 ↔ (w.server.clients i).cpcb ≠ none) ∧
    (∀ i, (w.server.clients i).cpcb = none → (w.server.clients i).p = []) ∧
    (∀ i p, (w.server.clients i).cpcb = some p → w.net.pcbs p ≠ none) ∧
    ∀ p b, w.net.pcbs p = some b → b.recv = some .doRecv →
      ∃ i, b.callbackArg = .slot i ∧ (w.server.clients i).cpcb = some p := by
  intro w
  have hm : markedMachine.Legal (.initial g) es := by
    refine Machine.legal_mono (M := serverMachine) (N := markedMachine) rfl (fun s e he hen => ⟨hen, ?_⟩) hl
    cases e with
    | accept p port => exact fun _ => hport p port he
    | _ => trivial
  have h : Owned w.server.clients w.net := (sound_run hm).owned
  refine ⟨h.holder, ?_, h.port_iff, h.queue, ?_, ?_⟩
  · intro p b q a i hp hb hq ha
    exact Option.some.inj ((h.holder p b i hp hb).1.symm.trans (h.holder q a i hq ha).1)
  · intro i p hc
    obtain ⟨b, hb, -⟩ := h.live i p hc
    simp [hb]
  · intro p b hp hr
    obtain ⟨i, hi⟩ := h.registered p b hp hr
    exact ⟨i, hi, (h.holder p b i hp hi).1⟩

theorem slot_correspondence_two_connections :
    let es : List Event := [.accept 7 50000, .accept 9 50000, .fin 7 .ok]
    let w := serverMachine.run (.initial 0) es
    serverMachine.Legal (.initial 0) es ∧ (w.server.clients 1).cpcb = some 9 ∧ w.net.pcbs 9 ≠ none := by
  have hl : serverMachine.Legal (.initial 0) [.accept 7 50000, .accept 9 50000, .fin 7 .ok] :=
    ⟨rfl, rfl, rfl, trivial⟩
  have hport : ∀ p port, Event.accept p port ∈ ([.accept 7 50000, .accept 9 50000, .fin 7 .ok] : List Event) →
      port ≠ 0 := by
    simp only [List.mem_cons, Event.accept.injEq, reduceCtorEq, List.not_mem_nil, or_false]
    rintro p port (⟨-, rfl⟩ | ⟨-, rfl⟩) <;> decide
  have h := slot_correspondence 0 _ hl hport
  exact ⟨hl, rfl, h.2.2.2.2.1 1 9 rfl⟩

end LogoCore.Ethernet
