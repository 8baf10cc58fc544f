import LogoCore.TcpDelivery
import LogoCore.TcpFrames
import LogoCore.TcpSenderRuns

namespace LogoCore.Lwip

open Ethernet SequenceNumbers

/-- One direction of a connection: the side that sends, and the side that receives what the network delivers of it. -/
structure Link where
  sender : Sender
  receiver : Receiver
deriving DecidableEq, Repr

inductive LinkEvent where
  | send (e : SendEvent)
  | recv (e : RecvEvent)
deriving DecidableEq, Repr

def linkStep (l : Link) : LinkEvent → Link
  | .send e => { l with sender := sendStep l.sender e }
  | .recv e => { l with receiver := recvStep l.receiver e }

/-- The network delivers what was sent in any order, any number of times or never; it invents nothing. What else a
segment for the sender needs is as in `Acceptable`. -/
def linkMachine : Machine Link LinkEvent where
  enabled l e := match e with
    | .send (.input q _) => l.sender.live = true →
      Acceptable l.sender q ∧ (q.ack = true → ∃ ack ∈ l.receiver.acks, q.ackno = ack.ackno)
    | .send e => sendMachine.enabled l.sender e
    | .recv (.input x _) => l.receiver.live = true → x.rst = false → x.seg ∈ l.sender.wire ∧
      (x.seg.syn = true → l.receiver.pcb.state = .synRcvd → x.ack = false)
    | .recv _ => True
  step := linkStep

/-- The first `n` numbers from `base` on do not wrap around, and they are few enough to be compared with each other. -/
structure Unwrapped (n : ℕ) (base : UInt32) : Prop where
  short : n + 2 ^ 17 < 2 ^ 31
  top : base.toNat + n + 2 ^ 17 < 2 ^ 32

structure Ahead (s : Sender) (w : List UInt8) : Prop where
  written : s.written <+: w
  fin : s.pcb.fin = true → s.written = w

variable {base : UInt32} {s : Sender} {w : List UInt8}

theorem Sound.ahead (h : Sound base s) (hw : Ahead s w) {seg : TcpSeg} (hseg : seg ∈ s.wire) :
    ∃ y, Carries w base y seg := by
  obtain ⟨y, hcarries, hle⟩ := h.wire seg hseg
  refine ⟨y, ?_⟩
  cases hfin : s.pcb.fin with
  | true =>
    rw [← hw.fin hfin]
    exact hcarries
  | false =>
    obtain ⟨d, rfl⟩ := hw.written
    rw [SendView.stop, show s.pcb.view.fin = false from hfin, Bool.toNat_false, Nat.cast_zero, add_zero] at hle
    exact hcarries.grow hle d

theorem processState_written (s : Sender) (q : AckSegment) : (s.processState q).written = s.written := by
  rw [Sender.processState]
  cases s.pcb.state <;> dsimp only
  all_goals
    try split_ifs
  all_goals rfl

theorem tcpInput_written (s : Sender) (q : AckSegment) (ackNow : Bool) :
    (s.tcpInput q ackNow).written = s.written := by
  have hprocess : (s.tcpProcess q).written = s.written := by
    rw [Sender.tcpProcess]
    split_ifs
    · rfl
    · exact processState_written _ q
  rw [Sender.tcpInput]
  split_ifs
  · exact hprocess
  · exact hprocess

theorem tcpClose_written (s : Sender) (rst : Bool) (mem : ℕ) (ackNow : Bool) :
    (s.tcpClose rst mem ackNow).written = s.written := by
  have hfinish : ∀ state, (s.finish state mem ackNow).written = s.written := by
    intro state
    rw [Sender.finish]
    split_ifs <;> rfl
  rw [Sender.tcpClose]
  split_ifs
  · rfl
  · cases s.pcb.state <;> first | rfl | exact hfinish _

theorem sendStep_written (h : Sound base s) (e : SendEvent) :
    s.written <+: (sendStep s e).written ∧ (s.pcb.fin = true → (sendStep s e).written = s.written) := by
  have hsame : ∀ {w : List UInt8}, w = s.written → s.written <+: w ∧ (s.pcb.fin = true → w = s.written) := by
    rintro w rfl
    exact ⟨List.prefix_rfl, fun _ => rfl⟩
  unfold sendStep
  cases hlive : s.live with
  | false => exact hsame rfl
  | true =>
    cases e with
    | write data more mem =>
      obtain ⟨x, a, n, hsending, hstaged⟩ := h.queues hlive
      change s.written <+: (s.tcpWrite data more mem).written ∧ _
      obtain ⟨hok, -, hfin, -⟩ | ⟨hfail, -⟩ := tcpWrite_sending hsending hstaged.closed data more mem
      · refine ⟨?_, fun hf => absurd (hfin.symm.trans hf) Bool.false_ne_true⟩
        rw [Sender.tcpWrite, if_pos hok]
        exact List.prefix_append _ _
      · apply hsame
        rw [Sender.tcpWrite, if_neg hfail]
    | close rst mem ackNow => exact hsame (tcpClose_written s rst mem ackNow)
    | output ackNow => exact hsame rfl
    | input q ackNow => exact hsame (tcpInput_written s q ackNow)
    | slowtmr ackNow => exact hsame rfl
    | probe mem => exact hsame rfl
    | remove => exact hsame rfl

theorem Ahead.back {e : SendEvent} (h : Sound base s) (hw : Ahead (sendStep s e) w) : Ahead s w := by
  obtain ⟨hbegin, hfin⟩ := sendStep_written h e
  refine ⟨hbegin.trans hw.written, fun hf => ?_⟩
  rw [← hfin hf]
  exact hw.fin ((sendStep_marks s e).1 hf)

theorem plausible_of_carries {r : Receiver} {x : Segment} {y : ℤ} (hw : Unwrapped w.length base)
    (hr : Consistent w base r [] false) (hseg : Carries w base y x.seg)
    (hsyn : x.seg.syn = true → r.pcb.state = .synRcvd → x.ack = false) : Plausible w base r x := by
  refine ⟨fun hs _ => ?_, hsyn, fun hs hopen => ?_⟩
  · obtain ⟨-, hseg⟩ | ⟨-, hg, -⟩ := hseg
    · rw [hseg]
      change number base (-1) + 1 = base
      rw [number_add_one]
      exact number_zero base
    · rw [hg.syn] at hs
      cases hs
  · obtain ⟨-, hseg⟩ | ⟨hy, hg, hne⟩ := hseg
    · rw [hseg] at hs
      cases hs
    · have hlen := hr.received.length_le
      have hend := hg.end_le hne
      have htcplen := hg.tcplen
      have hshort := hw.short
      have hfin : x.seg.fin.toNat ≤ 1 := Bool.toNat_le _
      -- the right edge of the window stays below the wrap
      have htop := hw.top
      have hwnd := r.pcb.rcvWnd.toNat_lt
      exact ⟨y.toNat, hg, by omega, by omega, fun _ => (Nat.div_eq_of_lt (by omega)).trans_le (Nat.zero_le _)⟩

structure Linked (base : UInt32) (l : Link) : Prop where
  sound : Sound base l.sender
  consistent : ∀ w, Ahead l.sender w → Unwrapped w.length base → Consistent w base l.receiver [] false
  acked : l.sender.pcb.lastack = number base (-1) ∨ ∃ ack ∈ l.receiver.acks, l.sender.pcb.lastack = ack.ackno

theorem linkStep_linked (l : Link) (e : LinkEvent) (he : linkMachine.enabled l e) (h : Linked base l) :
    Linked base (linkStep l e) := by
  cases e with
  | send e =>
    have henabled : sendMachine.enabled l.sender e := by
      cases e with
      | input q ackNow => exact fun hlive => (he hlive).1
      | _ => exact he
    refine ⟨sendStep_sound l.sender e henabled h.sound, fun w hw => h.consistent w (hw.back h.sound), ?_⟩
    obtain hsame | ⟨hlive, q, ackNow, rfl, hq, hlast⟩ := (sendStep_marks l.sender e).2
    · have hacked := h.acked
      rw [← hsame] at hacked
      exact hacked
    · obtain ⟨ack, hack, hackno⟩ := (he hlive).2 hq
      exact .inr ⟨ack, hack, hlast.trans hackno⟩
  | recv e =>
    refine ⟨h.sound, fun w hw hwrap => ?_, ?_⟩
    · have hr := h.consistent w hw hwrap
      refine recvStep_consistent l.receiver e ?_ hr
      cases e with
      | input x env =>
        intro hlive _ hrst
        obtain ⟨hmem, hsyn⟩ := he hlive hrst
        obtain ⟨y, hcarries⟩ := h.sound.ahead hw hmem
        exact plausible_of_carries hwrap hr hcarries hsyn
      | _ => trivial
    · obtain hnone | ⟨ack, hack, hlast⟩ := h.acked
      · exact .inl hnone
      · exact .inr ⟨ack, (recvStep_acks l.receiver e).subset hack, hlast⟩

/-- How the receiving side begins: it waits for the SYN of an active open, or was set up by the SYN. -/
def RecvStart (base : UInt32) (r : Receiver) : Prop :=
  r = tcpConnect ∨ ∃ mssOption, r = tcpListenInput (base - 1) mssOption

theorem start_lastack (h : SendStart base s) : s.pcb.lastack = number base (-1) := by
  have hlast : base - 1 = number base (-1) := by
    have h := number_sub_one base 0
    rwa [number_zero] at h
  obtain ⟨old, rfl⟩ | ⟨seqno, wnd, mssOption, rfl⟩ := h
  · exact hlast
  · rw [← hlast]
    cases mssOption <;> rfl

theorem linked_start {l : Link} (hs : SendStart base l.sender) (hr : RecvStart base l.receiver) : Linked base l := by
  refine ⟨sound_start hs, fun w _ _ => ?_, .inl (start_lastack hs)⟩
  obtain hr | ⟨mssOption, hr⟩ := hr
  · rw [hr]
    exact consistent_connect w base
  · have h := consistent_listen w (base - 1) mssOption
    rw [UInt32.sub_add_cancel] at h
    rw [hr]
    exact h

theorem ahead_self (s : Sender) : Ahead s s.written := ⟨List.prefix_rfl, fun _ => rfl⟩

theorem Linked.acked_le {l : Link} (h : Linked base l) (hwrap : Unwrapped (l.sender.written.length + 1) base) {a : ℤ}
    (hlast : l.sender.pcb.lastack = number base a) (hlow : -1 ≤ a) (hhigh : a ≤ l.sender.written.length + 1) :
    a ≤ l.receiver.received.length ∨ l.receiver.received = l.sender.written := by
  have hshort := hwrap.short
  obtain hnone | ⟨ack, hack, hackno⟩ := h.acked
  · have hnear : Near a (-1) := by
      constructor <;> omega
    have ha := (number_inj hnear).mp (hlast.symm.trans hnone)
    exact .inl (by omega)
  · have hr := h.consistent _ (ahead_self _) ⟨by omega, by have htop := hwrap.top; omega⟩
    obtain ⟨k, hk, hnumber⟩ := hr.acks ack hack
    have hlen := hr.received.length_le
    have hbound : k ≤ l.receiver.received.length + 1 := by
      obtain hk | ⟨hk, -⟩ := hk <;> omega
    have hnear : Near a k := by
      constructor <;> omega
    have ha := (number_inj hnear).mp (hlast.symm.trans (hackno.trans hnumber))
    obtain hk | ⟨-, hall⟩ := hk
    · exact .inl (by omega)
    · exact .inr hall

def exchange : List LinkEvent :=
  let env : Env := ⟨true, true, true, .ok, true, .ok, true⟩
  [.send (.output false), .recv .output, .send (.input ⟨5000, 1000, 4000, 1, true, true, false, false, none⟩ false),
    .send (.write [1, 2, 3] false 10), .send (.output false),
    .recv (.input ⟨⟨1000, false, false, 3, [1, 2, 3]⟩, false, true, true, false, none⟩ env),
    .send (.close false 10 false),
    .recv (.input ⟨⟨1003, true, false, 0, []⟩, false, true, false, false, none⟩ env)]

def exchangeStart : Link := ⟨tcpConnectSend 7 1000, tcpListenInput 999 none⟩

theorem exchange_legal : linkMachine.Legal exchangeStart exchange := by
  exact ⟨fun _ => trivial, trivial, fun _ => ⟨⟨fun _ => by decide, fun h => absurd rfl h,
      fun _ h => absurd h.dupacks (by decide)⟩, fun _ => ⟨⟨1000, 11680⟩, by decide, by decide⟩⟩,
    fun _ => by decide, fun _ => trivial, fun _ _ => ⟨by decide, fun h => by cases h⟩, fun _ => by decide,
    fun _ _ => ⟨by decide, fun h => by cases h⟩, trivial⟩

end LogoCore.Lwip
