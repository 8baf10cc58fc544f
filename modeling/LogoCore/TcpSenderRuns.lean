import LogoCore.TcpSenderInput

namespace LogoCore.Lwip

open Ethernet SequenceNumbers

/-- The sending side of a connection. The application has the control block only once the connection is accepted, and
the persist timer runs only when it is established. -/
def sendMachine : Machine Sender SendEvent where
  enabled s e :=
    s.live = true → match e with
      | .write _ _ _ | .close _ _ _ => s.pcb.state ≠ .synRcvd
      | .input q _ => Acceptable s q
      | .probe _ => ¬ Connecting s.pcb.state
      | _ => True
  step := sendStep

theorem sendStep_sound {base : UInt32} (s : Sender) (e : SendEvent) (he : sendMachine.enabled s e) (h : Sound base s) :
    Sound base (sendStep s e) := by
  unfold sendStep
  cases hlive : s.live with
  | false => exact h
  | true =>
    have he := he hlive
    cases e with
    | write data more mem => exact h.tcpWrite hlive he data more mem
    | close rst mem ackNow => exact h.tcpClose hlive he rst mem ackNow
    | output ackNow => exact h.tcpOutput hlive ackNow
    | input q ackNow => exact h.tcpInput hlive he ackNow
    | slowtmr ackNow => exact h.tcpSlowtmr hlive ackNow
    | probe mem => exact h.tcpZeroWindowProbe hlive he mem
    | remove => exact h.remove

theorem sending_syn {base : UInt32} {n : ℤ} {v : SendView} {s : OutSeg} (hn : n = -1 ∨ n = 0)
    (hqueue : v.unsent = [s]) (hunacked : v.unacked = []) (hseg : s.seg = ⟨number base (-1), false, true, 0, []⟩)
    (hclen : s.clen = 1) (hlast : v.lastack = number base (-1)) (hnxt : v.sndNxt = number base n)
    (hlbb : v.sndLbb = number base 0) (hbuf : v.sndBuf.toNat = tcpSndBuf - 1) (hlen : v.sndQueuelen = 1)
    (hmss : v.mss.toNat ≤ tcpMss) (hover : v.unsentOversize = 0) (hfin : v.fin = false) :
    Sending [] base (-1) (-1) n v := by
  have hq : v.queue = [s] := by rw [SendView.queue, hqueue, hunacked, List.nil_append]
  have hone : s.seg.tcplen.toNat = 1 := by
    rw [hseg]
    rfl
  have hstop : v.stop [] = 0 := by
    rw [SendView.stop, hfin]
    rfl
  have hmem : ∀ t ∈ v.queue, t = s := by
    intro t ht
    rw [hq] at ht
    exact List.mem_singleton.mp ht
  refine
    { chain := ?_
      total := ?_
      first := ?_
      start_le := le_rfl
      acked_le := by omega
      unacked_le := by
        rw [hunacked, span_nil]
        omega
      sent_le := by omega
      lastack := hlast
      sndNxt := hnxt
      buffer := ⟨0, hlbb, le_rfl, hstop.ge, ?_⟩
      counted := ?_
      counted_le := ?_
      syn := ?_
      mss := hmss
      short := ?_
      spare := fun hne => absurd hover hne }
  · rw [hq]
    exact ⟨.inl ⟨rfl, hseg⟩, trivial⟩
  · rw [hq, span_cons, span_nil, hone, hstop]
    rfl
  · intro t ht
    rw [hmem t (List.mem_of_mem_head? ht), hone]
    decide
  · rw [hbuf]
    rfl
  · rw [hq, hlen, pbufs_cons, hclen]
    rfl
  · rw [hlen]
    decide
  · intro t ht _
    rw [hmem t ht, hclen]
  · intro t ht
    rw [hmem t ht, hseg]
    exact Nat.zero_le _

theorem enqueue_syn {pcb : SendPcb} (hlen : pcb.sndQueuelen = 0) (hbuf : pcb.sndBuf = UInt16.ofNat tcpSndBuf) :
    (tcpEnqueueFlags pcb true false 2).2 = { pcb with
      unsent := pcb.unsent ++ [⟨⟨pcb.sndLbb, false, true, 0, []⟩, 1, 0⟩]
      unsentOversize := 0
      sndLbb := pcb.sndLbb + 1
      sndBuf := UInt16.ofNat (tcpSndBuf - 1)
      fin := pcb.fin || false
      sndQueuelen := 1 } := by
  rw [tcpEnqueueFlags, hlen, hbuf, if_neg (by decide), if_neg (by decide), if_neg (by decide)]
  rfl

theorem sound_listen (iss seqno : UInt32) (wnd : UInt16) (mssOption : Option UInt16) :
    Sound (iss + 1) (tcpListenInputSend iss seqno wnd mssOption) := by
  have hiss : iss = number (iss + 1) (-1) := by
    have h := number_sub_one (iss + 1) 0
    rw [number_zero, UInt32.add_sub_cancel] at h
    exact h
  have hmss := effSendMss_le (SendPcb.parseopt
    { tcpAllocSend iss with
      state := .synRcvd, sndWnd := wnd, sndWndMax := wnd, ssthresh := wnd, sndWl1 := seqno - 1 } mssOption).mss
  rw [tcpListenInputSend, parseopt_eq, enqueue_syn rfl rfl]
  refine ⟨fun seg hseg => absurd hseg List.not_mem_nil, fun _ => ⟨-1, -1, -1, ?_, ?_⟩⟩
  · exact sending_syn (.inl rfl) rfl rfl (by rw [← hiss]; rfl) rfl hiss hiss (number_zero _).symm rfl rfl hmss rfl rfl
  · refine ⟨fun hf => absurd hf Bool.false_ne_true, fun _ => ⟨rfl, rfl⟩, fun hs => ?_, fun hc => absurd (.inr rfl) hc⟩
    cases hs

theorem sound_connect (old iss : UInt32) : Sound iss (tcpConnectSend old iss) := by
  have hiss : iss - 1 = number iss (-1) := by
    have h := number_sub_one iss 0
    rw [number_zero] at h
    exact h
  rw [tcpConnectSend, enqueue_syn rfl rfl]
  refine ⟨fun seg hseg => absurd hseg List.not_mem_nil, fun _ => ⟨-1, -1, 0, ?_, ?_⟩⟩
  · have hmss := effSendMss_le 536
    refine sending_syn (.inr rfl) rfl rfl (by rw [← hiss]) rfl hiss (number_zero _).symm ?_ rfl rfl hmss rfl rfl
    change iss - 1 + 1 = _
    rw [UInt32.sub_add_cancel, number_zero]
  · exact ⟨fun hf => absurd hf Bool.false_ne_true, fun _ => ⟨rfl, rfl⟩, fun _ => rfl, fun hc => absurd (.inl rfl) hc⟩

/-- How the sending side of a connection with the first number `base` begins. -/
def SendStart (base : UInt32) (s : Sender) : Prop :=
  (∃ old, s = tcpConnectSend old base) ∨ ∃ seqno wnd mssOption, s = tcpListenInputSend (base - 1) seqno wnd mssOption

theorem sound_start {base : UInt32} {s : Sender} (h : SendStart base s) : Sound base s := by
  obtain ⟨old, rfl⟩ | ⟨seqno, wnd, mssOption, rfl⟩ := h
  · exact sound_connect old base
  · have hsound := sound_listen (base - 1) seqno wnd mssOption
    rwa [UInt32.sub_add_cancel] at hsound

theorem run_sound {base : UInt32} {s : Sender} (hstart : SendStart base s) {es : List SendEvent}
    (hes : sendMachine.Legal s es) : Sound base (sendMachine.run s es) :=
  Machine.invariant sendStep_sound (sound_start hstart) hes

def firstWrite : List SendEvent :=
  [.output false, .input ⟨5000, 1000, 4000, 1, true, true, false, false, none⟩ false, .write [1, 2, 3] false 10,
    .output false]

theorem firstWrite_legal : sendMachine.Legal (tcpConnectSend 7 1000) firstWrite :=
  ⟨fun _ => trivial, fun _ => ⟨fun _ => by decide, fun h => absurd rfl h, fun _ h => absurd h.dupacks (by decide)⟩,
    fun _ => by decide, fun _ => trivial, trivial⟩

/-- The bookkeeping of `tcp_write`: `snd_buf` is the buffer less what is written and not acknowledged, `snd_queuelen`
counts the pbufs of both queues, no segment is longer than the MSS, and the bytes `tcp_write` puts behind the last
unsent segment fit the memory allocated there. -/
theorem send_queues_account (base : UInt32) (s : Sender) (hstart : SendStart base s) (es : List SendEvent)
    (hes : sendMachine.Legal s es) :
    let s := sendMachine.run s es
    s.live = true →
      s.pcb.sndQueuelen.toNat = pbufs (s.pcb.unacked ++ s.pcb.unsent) ∧ s.pcb.sndQueuelen.toNat ≤ tcpSndQueuelen ∧
      (∃ a l : ℤ, s.pcb.lastack = number base a ∧ s.pcb.sndLbb = number base l ∧ a ≤ l + 1 ∧
        (s.pcb.sndBuf.toNat : ℤ) = tcpSndBuf - (l - a)) ∧
      (∀ t ∈ s.pcb.unacked ++ s.pcb.unsent, t.seg.p.length ≤ s.pcb.mss.toNat) ∧
      (s.pcb.unsentOversize ≠ 0 → ∃ t, s.pcb.unsent.getLast? = some t ∧ s.pcb.unsentOversize.toNat ≤ t.room) := by
  intro s hlive
  have h : Sound base s := run_sound hstart hes
  obtain ⟨x, a, n, hsending, -⟩ := h.queues hlive
  refine ⟨hsending.counted, hsending.counted_le, ?_, ?_, ?_⟩
  · obtain ⟨l, hl, hlow, hhigh, hbuf⟩ := hsending.buffer
    have hle := hsending.acked_le
    have hn := hsending.sent_le
    have hstop := s.pcb.view.stop_le s.written
    refine ⟨a, l, hsending.lastack, hl, by omega, ?_⟩
    have hbuf : (s.pcb.sndBuf.toNat : ℤ) = tcpSndBuf + a - l := hbuf
    omega
  · intro t ht
    exact (hsending.short t ht).trans (Nat.min_le_left _ _)
  · intro hne
    obtain ⟨t, ht, -, hroom, -⟩ := hsending.spare hne
    exact ⟨t, ht, hroom⟩

theorem firstWrite_accounts :
    (sendMachine.run (tcpConnectSend 7 1000) firstWrite).live = true ∧
      (sendMachine.run (tcpConnectSend 7 1000) firstWrite).pcb.sndQueuelen.toNat ≤ tcpSndQueuelen :=
  have hlive : (sendMachine.run (tcpConnectSend 7 1000) firstWrite).live = true := by decide
  ⟨hlive, (send_queues_account 1000 (tcpConnectSend 7 1000) (.inl ⟨7, rfl⟩) firstWrite firstWrite_legal hlive).2.1⟩

end LogoCore.Lwip
