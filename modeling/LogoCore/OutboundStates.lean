import LogoCore.OutboundLedger

namespace LogoCore.Ethernet

structure Robust (φ : Pcb → Prop) : Prop where
  alike : ∀ b b' : Pcb, b'.poll = b.poll → b'.rxClosed = b.rxClosed →
    (b.state.isClosing = true → b'.state.isClosing = true) → φ b → φ b'
  closed : ∀ (b : Pcb) (s : TcpState), s.isClosing = true → φ { b with rxClosed := true, state := s }
  retry : ∀ (b : Pcb) (s : TcpState) (f : Callback), φ { b with rxClosed := true, state := s, poll := some f }
  polling : ∀ b : Pcb, φ b → φ { b with poll := some .clientDoPoll }
  fresh : ∀ b : Pcb, b.rxClosed = false → b.poll = none → φ b

namespace Net

def All (φ : Pcb → Prop) (n : Net) : Prop := ∀ p b, n.pcbs p = some b → φ b

variable {φ : Pcb → Prop} {n m : Net} {p : PcbPtr}

theorem All.update (h : n.All φ) {o : Option Pcb} (hm : m.pcbs = Function.update n.pcbs p o)
    (ho : ∀ b ∈ o, φ b) : m.All φ := by
  intro q b hq
  by_cases hqp : q = p
  · subst q
    rw [hm, Function.update_self] at hq
    exact ho b hq
  · rw [hm, Function.update_of_ne hqp] at hq
    exact h q b hq

theorem All.modify (h : n.All φ) {f : Pcb → Pcb} (hf : ∀ b, φ b → φ (f b)) : (n.modify p f).All φ := by
  refine h.update (p := p) rfl fun b hb => ?_
  obtain ⟨a, ha, rfl⟩ := Option.mem_map.mp hb
  exact hf a (h p a ha)

theorem All.free (h : n.All φ) : (n.free p).All φ := h.update (p := p) rfl fun _ hb => nomatch hb

theorem All.alike (h : n.All φ) (hφ : Robust φ) {f : Pcb → Pcb}
    (hf : ∀ b, (f b).poll = b.poll ∧ (f b).rxClosed = b.rxClosed ∧ (f b).state = b.state) :
    (n.modify p f).All φ := by
  refine h.modify fun b hb => ?_
  obtain ⟨hpoll, hrx, hs⟩ := hf b
  exact hφ.alike b _ hpoll hrx (fun h => hs ▸ h) hb

theorem All.tcpRecved (h : n.All φ) (hφ : Robust φ) (len : ℕ) : (n.tcpRecved p len).All φ := by
  refine h.alike hφ (p := p) ?_
  exact fun _ => ⟨rfl, rfl, rfl⟩

theorem All.tcpClose (h : n.All φ) (hφ : Robust φ) {fin : Err}
    (hfin : fin = .ok ∨ ∀ (b : Pcb) (s : TcpState), φ { b with rxClosed := true, state := s }) :
    (n.tcpClose p fin).2.All φ := by
  cases hb : n.pcbs p with
  | none =>
    refine h.update (p := p) (o := none) ?_ fun _ hb => nomatch hb
    simp [Net.tcpClose, Net.modify, record, hb]
  | some b =>
    obtain ⟨-, hm⟩ | ⟨s, hm, hs⟩ := closes_tcpClose hb fin
    · exact h.update hm fun _ hb => nomatch hb
    · refine h.update hm fun c hc => ?_
      cases hc
      obtain ⟨-, hs⟩ | ⟨-, hne⟩ := hs
      · exact hφ.closed b s hs
      · exact hfin.resolve_left hne b s

theorem All.close (h : n.All φ) (hφ : Robust φ) (fin : Err) (f : Callback) :
    (if (n.tcpClose p fin).1 = .ok then (n.tcpClose p fin).2
      else (n.tcpClose p fin).2.tcpPoll p (some f)).All φ := by
  cases hb : n.pcbs p with
  | none =>
    have hm : (n.tcpClose p fin).2.pcbs = Function.update n.pcbs p none := by
      simp [Net.tcpClose, Net.modify, record, hb]
    have hall : (n.tcpClose p fin).2.All φ := h.update hm fun b hb => absurd hb (Option.some_ne_none b).symm
    split_ifs
    · exact hall
    · refine hall.update (p := p) (o := none) ?_ fun b hb => absurd hb (Option.some_ne_none b).symm
      simp [tcpPoll, Net.modify, record, hm]
  | some b =>
    obtain ⟨hok, hm⟩ | ⟨s, hm, hs⟩ := closes_tcpClose hb fin
    · rw [if_pos hok]
      exact h.update hm fun b hb => absurd hb (Option.some_ne_none b).symm
    · split_ifs with hok
      · refine h.update hm fun c hc => ?_
        cases hc
        obtain ⟨-, hs⟩ | ⟨hfin, hne⟩ := hs
        · exact hφ.closed b s hs
        · exact absurd (hfin.symm.trans hok) hne
      · refine h.update (p := p) (o := some { b with rxClosed := true, state := s, poll := some f }) ?_ ?_
        · simp [tcpPoll, Net.modify, record, hm]
        · intro c hc
          cases hc
          exact hφ.retry b s f

end Net

namespace Conn

variable {φ : Pcb → Prop}

def Respects (φ : Pcb → Prop) (f : Conn → Conn) : Prop :=
  ∀ (o : SelfOwned) (n : Net), n.All φ → (f (o.conn n)).net.All φ

theorem respects_setConnected (b : Bool) : Respects φ fun c => c.setConnected b := fun _ _ h => h

theorem respects_doErr : Respects φ doErr := by
  intro o n h
  unfold doErr
  split_ifs <;> exact h

theorem respects_doRecv (q : Chain) : Respects φ fun c => c.doRecv q := by
  intro o n h
  dsimp only
  unfold doRecv
  split_ifs <;> exact h

theorem respects_startPolling (hφ : Robust φ) : Respects φ startPolling := by
  intro o n h
  simp only [startPolling, SelfOwned.conn_cs, SelfOwned.conn_net]
  cases o.state.cpcb with
  | none => exact h
  | some p => exact h.modify (p := p) hφ.polling

theorem respects_read (hφ : Robust φ) : Respects φ fun c => c.read.2 := by
  intro o n h
  dsimp only
  unfold read readLocked
  split_ifs
  · exact h
  · dsimp only
    rw [SelfOwned.conn_cs, SelfOwned.conn_net]
    cases hp : o.state.p with
    | nil => simpa only [takeByte, hp] using h
    | cons q next =>
      have hn : (o.state.cpcb.elim n fun pcb => n.tcpRecved pcb ((o.state.read + 1) % 65536)).All φ := by
        cases o.state.cpcb with
        | none => exact h
        | some pcb => exact h.tcpRecved hφ _
      rw [takeByte, hp]
      dsimp only
      split
      · exact hn
      · split
        · exact hn
        · exact hn

theorem respects_flush (hφ : Robust φ) : Respects φ flush := by
  intro o n h
  unfold flush
  split_ifs
  · dsimp only
    split
    · exact h
    · exact h.tcpRecved hφ _
  · exact h

theorem respects_abandon (hφ : Robust φ) {fin : Err}
    (hfin : fin = .ok ∨ ∀ (b : Pcb) (s : TcpState), φ { b with rxClosed := true, state := s }) :
    Respects φ fun c => c.abandon fin := by
  intro o n h
  simp only [abandon, SelfOwned.conn_cs]
  split
  · exact h
  · exact h.tcpClose hφ hfin

theorem respects_stop (hφ : Robust φ) (fin : Err) : Respects φ fun c => c.stop fin := by
  intro o n h
  obtain ⟨⟨port, p, cpcb, connected, read, mode, generation, claimed⟩, _⟩ := o
  cases cpcb with
  | none => exact h
  | some pcb =>
    have harg : (n.tcpArg pcb .null).All φ := by
      refine h.alike hφ (p := pcb) ?_
      exact fun _ => ⟨rfl, rfl, rfl⟩
    have hrecv : ((n.tcpArg pcb .null).tcpRecv pcb none).All φ := by
      refine harg.alike hφ (p := pcb) ?_
      exact fun _ => ⟨rfl, rfl, rfl⟩
    have hsent : (((n.tcpArg pcb .null).tcpRecv pcb none).tcpSent pcb none).All φ := by
      refine hrecv.alike hφ (p := pcb) ?_
      exact fun _ => ⟨rfl, rfl, rfl⟩
    have hdetach : ((((n.tcpArg pcb .null).tcpRecv pcb none).tcpSent pcb none).tcpErr pcb none).All φ := by
      refine hsent.alike hφ (p := pcb) ?_
      exact fun _ => ⟨rfl, rfl, rfl⟩
    generalize hm : (((n.tcpArg pcb .null).tcpRecv pcb none).tcpSent pcb none).tcpErr pcb none = m at hdetach
    have hdata : (if p = [] then m else (m.tcpRecved pcb (Chain.totLen p)).pbufFree p).All φ := by
      split_ifs
      · exact hdetach
      · exact hdetach.tcpRecved hφ _
    have hclose := hdata.close hφ fin .closeRetryPoll (p := pcb)
    rw [← hm] at hclose
    exact hclose

theorem respects_doPoll (hφ : Robust φ) (p : PcbPtr) (expired : Bool) (fin : Err) :
    Respects φ fun c => c.doPoll p expired fin := by
  intro o n h
  have hforget (c : Conn) (hc : c.net.All φ) : (c.forget p).net.All φ := by
    unfold forget
    split_ifs
    · rwa [setCs_net]
    · exact hc
  dsimp only
  unfold doPoll
  split
  · split
    · have habort : ((n.tcpPoll p none).tcpAbort p).All φ := by
        refine h.update (p := p) (o := none) ?_ fun _ hb => nomatch hb
        simp [Net.tcpAbort, Net.free, Net.tcpPoll, Net.record, Net.modify]
      apply hforget
      unfold doErr
      split
      · exact habort
      · exact habort
    · exact h
  · exact hforget _ (h.close hφ fin .clientDoPoll)

theorem respects_connectBegin (hφ : Robust φ) (k : ObjId) (pcb : Option PcbPtr) (port : UInt16) (res : Err) :
    Respects φ fun c => c.connectBegin k pcb port res := by
  intro o n h
  cases pcb with
  | none => exact h
  | some p =>
    have hnew : ((o.conn n).connectBegin k (some p) port res).net.pcbs = Function.update n.pcbs p
        (some ⟨port, if res = .ok then .synSent else .closed, .client k, some .clientDoRecv, none,
          some .clientDoErr, none, false, false, tcpWnd, tcpSndBuf⟩) := by
      simp [connectBegin, Net.tcpConnect, Net.tcpErr, Net.tcpRecv, Net.tcpArg, Net.tcpNew, Net.modify, Net.record]
    refine h.update hnew fun b hb => ?_
    cases hb
    exact hφ.fresh _ rfl rfl

end Conn

namespace Outbound

variable {φ : Pcb → Prop} {x : Outbound}

/-- A `connect` that gives up can queue its FIN. -/
def Queued (x : Outbound) : OutEvent → Prop
  | .advance _ _ err => (∃ k, x.task = .timingOut k ∨ x.task = .failing k) → err = .ok
  | _ => True

theorem all_apply (h : x.net.All φ) (k : ObjId) {f : Conn → Conn} (hf : Conn.Respects φ f) :
    (x.apply k f).net.All φ := by
  cases hk : x.objs k with
  | none => simpa [apply, hk] using h
  | some o => simpa [apply, hk] using hf o x.net h

theorem all_deliver (h : x.net.All φ) (a : CallbackArg) {f : Conn → Conn} (hf : Conn.Respects φ f) :
    (x.deliver a f).net.All φ := by
  cases a with
  | client k => exact all_apply h k hf
  | _ => exact h

theorem all_advance (hφ : Robust φ) (h : x.net.All φ) {late : Bool} {freed : TcpState} {err : Err}
    (hq : x.Queued (.advance late freed err) ∨
      ∀ (b : Pcb) (s : TcpState), φ { b with rxClosed := true, state := s }) :
    (x.advance late freed err).net.All φ := by
  have hwrite (cpcb : PcbPtr) (chunk : List UInt8) : (x.net.tcpWrite cpcb chunk err).All φ := by
    refine h.alike hφ (p := cpcb) fun b => ?_
    split_ifs <;> exact ⟨rfl, rfl, rfl⟩
  unfold advance
  split
  · exact h
  · split_ifs <;> exact h
  · rename_i k hk
    exact all_apply h k (Conn.respects_abandon hφ (hq.imp_left fun hq => hq ⟨k, .inl hk⟩))
  · dsimp only
    split_ifs <;> exact h
  · rename_i k hk
    have ha := Conn.respects_abandon hφ (hq.imp_left fun hq => hq ⟨k, .inr hk⟩)
    exact all_apply h k fun o n hn => ha { o with connected := false } n hn
  · exact all_apply h _ (Conn.respects_startPolling hφ)
  · exact h
  · exact h
  · exact h
  · dsimp only
    split
    · split
      · exact hwrite _ _
      · split
        · exact hwrite _ _
        · exact hwrite _ _
    · split <;> exact h

theorem all_step (hφ : Robust φ) (h : x.net.All φ) {e : OutEvent} (he : x.Enabled e)
    (hq : x.Queued e ∨ ∀ (b : Pcb) (s : TcpState), φ { b with rxClosed := true, state := s }) :
    (x.step e).net.All φ := by
  cases e with
  | construct k mem => exact h
  | copy k k' => exact h
  | destroy k => exact h
  | connect k pcb port res =>
    have ha := all_apply h k (Conn.respects_connectBegin hφ k pcb port res)
    simp only [step]
    split_ifs <;> exact ha
  | call k op =>
    cases op with
    | read => exact all_apply h k (Conn.respects_read hφ)
    | flush => exact all_apply h k (Conn.respects_flush hφ)
    | stop fin => exact all_apply h k (Conn.respects_stop hφ fin)
    | available => exact all_apply h k fun _ _ hn => hn
    | port => exact all_apply h k fun _ _ hn => hn
    | peek => exact all_apply h k fun _ _ hn => hn
    | _ => cases he.2.2
  | status k => exact h
  | availableForWrite k => exact h
  | write k buf => exact h
  | advance late freed err => exact all_advance hφ h hq
  | connected p =>
    obtain ⟨b, hb, hs⟩ := he
    have hb : x.net.pcbs p = some b := hb
    simp only [step, hb, Option.elim_some]
    refine all_deliver ?_ _ (Conn.respects_setConnected true)
    refine h.update (p := p) (o := some { b with state := .established }) ?_ fun c hc => ?_
    · simp [setNet, Net.modify, hb]
    · cases hc
      exact hφ.alike b _ rfl rfl (fun hc => by rw [hs] at hc; cases hc) (h p b hb)
  | data p c =>
    obtain ⟨b, hb⟩ := Option.isSome_iff_exists.mp he.1
    have hn : (x.setNet (x.net.receive p (Chain.totLen c))).net.All φ := by
      refine h.alike hφ (p := p) ?_
      exact fun _ => ⟨rfl, rfl, rfl⟩
    simp only [step, hb, Option.elim_some]
    split_ifs
    · exact all_deliver hn _ (Conn.respects_doRecv c)
    · exact hn
  | fin p =>
    obtain ⟨b, hb⟩ := Option.isSome_iff_exists.mp he
    have hn : (x.setNet (x.net.receiveFin p)).net.All φ := by
      refine h.modify (p := p) fun b hb => ?_
      split_ifs with hs
      · refine hφ.alike b _ rfl rfl (fun hc => ?_) hb
        obtain hs | hs := hs <;> rw [hs] at hc <;> cases hc
      · exact hb
    simp only [step, hb, Option.elim_some]
    split_ifs
    · exact all_deliver hn _ (Conn.respects_doRecv [])
    · exact hn
  | error p =>
    obtain ⟨b, hb⟩ := Option.isSome_iff_exists.mp he
    simp only [step, hb, Option.elim_some]
    refine Net.All.free ?_
    split_ifs
    · exact all_deliver h _ Conn.respects_doErr
    · exact h
  | poll p expired err =>
    obtain ⟨b, hb⟩ := Option.isSome_iff_exists.mp he
    simp only [step, hb, Option.elim_some, poll]
    split
    · exact all_deliver h _ (Conn.respects_doPoll hφ p expired err)
    · split
      · exact h.close hφ err .closeRetryPoll
      · exact h
  | progress p state refused rcvWnd sndBuf =>
    obtain ⟨b, hb, hs⟩ := he
    have hb : x.net.pcbs p = some b := hb
    refine h.update (p := p) (o := some { b with
      state := state, refusedData := refused, rcvWnd := rcvWnd, sndBuf := sndBuf }) ?_ fun c hc => ?_
    · simp [step, setNet, Net.modify, hb]
    · cases hc
      refine hφ.alike b _ rfl rfl (fun hc => ?_) (h p b hb)
      obtain rfl | ⟨-, hs⟩ := hs
      · exact hc
      · exact hs
  | reap p => exact h.free

theorem robust_retrying : Robust fun b => b.poll = some .closeRetryPoll → b.rxClosed = true where
  alike b b' hp hrx _ h hb := by rw [hrx]; exact h (hp ▸ hb)
  closed _ _ _ _ := rfl
  retry _ _ _ _ := rfl
  polling _ _ hb := by cases hb
  fresh _ _ hp hb := by rw [hp] at hb; cases hb

theorem retrying_step (h : x.Retrying) {e : OutEvent} (he : x.Enabled e) : (x.step e).Retrying :=
  all_step robust_retrying h he (.inr fun _ _ _ => rfl)

theorem retrying_initial : initial.Retrying := fun _ _ hb => nomatch hb

end Outbound

end LogoCore.Ethernet
