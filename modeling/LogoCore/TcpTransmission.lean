import LogoCore.TcpSegmentation
import LogoCore.TcpSender

namespace LogoCore.Lwip

open Ethernet SequenceNumbers

variable {w : List UInt8} {base : UInt32} {x a n : ℤ} {pcb : SendPcb}

section Finish

theorem Sending.lbb {v : SendView} (h : Sending w base x a n v) (hfin : v.fin = false) :
    v.sndLbb = number base w.length ∧ x + span v.queue = w.length ∧ v.sndBuf.toNat = tcpSndBuf + a - w.length := by
  obtain ⟨l, hl, hlow, hhigh, hbuf⟩ := h.buffer
  have htotal := h.total
  simp only [SendView.stop, hfin, Bool.toNat_false, Nat.cast_zero, add_zero] at hhigh htotal
  obtain rfl : l = w.length := by omega
  exact ⟨hl, htotal, hbuf⟩

theorem tcpEnqueueFlags_fin (h : Sending w base x a n pcb.view) (hfin : pcb.fin = false) (mem : ℕ) :
    ((tcpEnqueueFlags pcb false true mem).1 = .ok ∧ Sending w base x a n (tcpEnqueueFlags pcb false true mem).2.view ∧
      (tcpEnqueueFlags pcb false true mem).2.fin = true) ∨
    (tcpEnqueueFlags pcb false true mem).1 ≠ .ok ∧ (tcpEnqueueFlags pcb false true mem).2.view = pcb.view := by
  obtain ⟨hlbb, htotal, hbuf⟩ := h.lbb hfin
  have hlbb : pcb.sndLbb = number base w.length := hlbb
  have hbuf : (pcb.sndBuf.toNat : ℤ) = tcpSndBuf + a - w.length := hbuf
  have hcounted : pcb.sndQueuelen.toNat = pbufs (pcb.unacked ++ pcb.unsent) := h.counted
  rw [tcpEnqueueFlags]
  split_ifs with hlong hfull hmem
  · exact .inr ⟨by simp, rfl⟩
  · exact .inr ⟨by simp, rfl⟩
  · exact .inr ⟨by simp, rfl⟩
  refine .inl ⟨rfl, ?_, by simp⟩
  have hone : (1 : UInt16).toNat = 1 := rfl
  have hqueuelen : (pcb.sndQueuelen + 1).toNat = pcb.sndQueuelen.toNat + 1 := by
    simp only [tcpSndQueuelen, tcpSndBuf, tcpMss] at hlong
    rw [UInt16.toNat_add, hone]
    omega
  have hcarries : Carries w base w.length ⟨pcb.sndLbb, true, false, 0, []⟩ := by
    refine .inr ⟨Int.natCast_nonneg _, ⟨?_, rfl, by simp, List.nil_prefix, fun _ => ?_, rfl⟩, .inr rfl⟩
    · rw [hlbb, Int.toNat_natCast]
    · simp
  have hqueue : ∀ s : OutSeg, pcb.unacked ++ (pcb.unsent ++ [s]) = pcb.view.queue ++ [s] := fun s =>
    (List.append_assoc _ _ _).symm
  have hstop : pcb.view.stop w = w.length := by
    rw [SendView.stop, show pcb.view.fin = false from hfin]
    simp
  have hsent := h.sent_le
  rw [hstop] at hsent
  refine
    { chain := ?_
      total := ?_
      first := ?_
      start_le := h.start_le
      acked_le := h.acked_le
      unacked_le := h.unacked_le
      sent_le := ?_
      lastack := h.lastack
      sndNxt := h.sndNxt
      buffer := ⟨w.length + 1, ?_, ?_, ?_, ?_⟩
      counted := ?_
      counted_le := ?_
      syn := ?_
      mss := h.mss
      short := ?_
      spare := fun hne => absurd rfl hne }
  · change Chain w base x (pcb.unacked ++ (pcb.unsent ++ [_]))
    rw [hqueue, chain_append, htotal]
    exact ⟨h.chain, hcarries, trivial⟩
  · change x + span (pcb.unacked ++ (pcb.unsent ++ [_])) = w.length + (pcb.fin || true).toNat
    rw [hqueue, span_append, Bool.or_true, span_cons, span_nil, hcarries.tcplen]
    simp only [List.length_nil, Bool.toNat_true, Bool.toNat_false]
    omega
  · intro s hs
    change (pcb.unacked ++ (pcb.unsent ++ [_])).head? = some s at hs
    rw [hqueue] at hs
    cases hq : pcb.view.queue with
    | nil =>
      rw [hq] at hs
      obtain rfl := Option.some_inj.mp hs
      have hpos := hcarries.tcplen_pos
      have ha := h.acked_le
      rw [hq, span_nil] at htotal
      dsimp only
      omega
    | cons s₀ rest =>
      rw [hq] at hs
      exact h.first s (by rw [hq]; exact hs)
  · change n ≤ w.length + (pcb.fin || true).toNat
    omega
  · change pcb.sndLbb + 1 = _
    rw [hlbb, number_add_one]
  · omega
  · change (w.length + 1 : ℤ) ≤ w.length + (pcb.fin || true).toNat
    rw [Bool.or_true]
    exact le_rfl
  · have hpos : 0 < pcb.sndBuf.toNat := by
      rw [Nat.pos_iff_ne_zero]
      intro hzero
      exact hfull (UInt16.toNat_inj.mp hzero)
    change ((pcb.sndBuf - 1).toNat : ℤ) = _
    have hle : (1 : UInt16) ≤ pcb.sndBuf := UInt16.le_iff_toNat_le.mpr hpos
    rw [UInt16.toNat_sub_of_le _ _ hle, hone]
    omega
  · change (pcb.sndQueuelen + 1).toNat = pbufs (pcb.unacked ++ (pcb.unsent ++ [_]))
    rw [hqueue, pbufs_append, hqueuelen, hcounted]
    rfl
  · change (pcb.sndQueuelen + 1).toNat ≤ _
    omega
  · intro s hs hsyn
    change s ∈ pcb.unacked ++ (pcb.unsent ++ [_]) at hs
    rw [hqueue] at hs
    obtain hs | hs := List.mem_append.mp hs
    · exact h.syn s hs hsyn
    · obtain rfl := List.mem_singleton.mp hs
      rfl
  · intro s hs
    change s ∈ pcb.unacked ++ (pcb.unsent ++ [_]) at hs
    rw [hqueue] at hs
    obtain hs | hs := List.mem_append.mp hs
    · exact h.short s hs
    · obtain rfl := List.mem_singleton.mp hs
      exact Nat.zero_le _

theorem Sending.piggyback {v : SendView} (h : Sending w base x a n v) (hfin : v.fin = false) {init : List OutSeg}
    {last : OutSeg} (hunsent : v.unsent = init ++ [last]) (hsyn : last.seg.syn = false) :
    Sending w base x a n { v with
      unsent := init ++ [{ last with seg := { last.seg with fin := true } }], fin := true } := by
  obtain ⟨hlbb, htotal, hbuf⟩ := h.lbb hfin
  have hqueue : v.queue = v.unacked ++ init ++ [last] := by rw [SendView.queue, hunsent, List.append_assoc]
  have hassoc : ∀ s : OutSeg, v.unacked ++ (init ++ [s]) = v.unacked ++ init ++ [s] := fun s =>
    (List.append_assoc _ _ _).symm
  have hchain := h.chain
  rw [hqueue] at hchain
  obtain ⟨hinit, hcarries, -⟩ := chain_append.mp hchain
  have hmem : last ∈ v.queue := by
    rw [hqueue]
    exact List.mem_append_right _ List.mem_cons_self
  have hinitMem : ∀ s ∈ v.unacked ++ init, s ∈ v.queue := by
    intro s hs
    rw [hqueue]
    exact List.mem_append_left _ hs
  rw [hqueue, span_append, span_cons, span_nil] at htotal
  have hnofin := hcarries.fin_eq_false (by omega)
  have hfilled : Carries w base (x + span (v.unacked ++ init)) { last.seg with fin := true } := by
    obtain ⟨-, hseg⟩ | ⟨hx, hg, hne⟩ := id hcarries
    · rw [hseg] at hsyn
      cases hsyn
    · refine .inr ⟨hx, hg.withFin ?_, .inr rfl⟩
      have hlen := hg.tcplen
      rw [hnofin, Bool.toNat_false] at hlen
      omega
  have htcplen : (TcpSeg.tcplen { last.seg with fin := true }).toNat = last.seg.tcplen.toNat + 1 := by
    rw [hfilled.tcplen, hcarries.tcplen, hnofin]
    simp only [Bool.toNat_true, Bool.toNat_false]
    omega
  have hsent := h.sent_le
  have hcounted := h.counted
  rw [hqueue, pbufs_append] at hcounted
  simp only [SendView.stop, hfin, Bool.toNat_false] at hsent
  refine { h with
    chain := ?_
    total := ?_
    first := ?_
    sent_le := ?_
    buffer := ⟨w.length, hlbb, le_rfl, ?_, hbuf⟩
    counted := ?_
    syn := ?_
    short := ?_
    spare := ?_ }
  · change Chain w base x (v.unacked ++ (init ++ [_]))
    rw [hassoc]
    exact chain_append.mpr ⟨hinit, hfilled, trivial⟩
  · change x + span (v.unacked ++ (init ++ [_])) = w.length + true.toNat
    rw [hassoc, span_append, span_cons, span_nil, htcplen, Bool.toNat_true]
    omega
  · intro s hs
    change (v.unacked ++ (init ++ [_])).head? = some s at hs
    have hfirst := h.first
    rw [hassoc] at hs
    rw [hqueue] at hfirst
    cases hfront : v.unacked ++ init with
    | nil =>
      rw [hfront] at hs hfirst
      obtain rfl := Option.some_inj.mp hs
      have hlt := hfirst last rfl
      dsimp only at htcplen ⊢
      omega
    | cons s₀ rest =>
      rw [hfront] at hs hfirst
      exact hfirst s hs
  · change n ≤ w.length + true.toNat
    omega
  · change (w.length : ℤ) ≤ w.length + true.toNat
    omega
  · change v.sndQueuelen.toNat = pbufs (v.unacked ++ (init ++ [_]))
    rw [hassoc, pbufs_append]
    exact hcounted
  · intro s hs hs'
    change s ∈ v.unacked ++ (init ++ [_]) at hs
    rw [hassoc] at hs
    obtain hs | hs := List.mem_append.mp hs
    · exact h.syn s (hinitMem s hs) hs'
    · obtain rfl := List.mem_singleton.mp hs
      exact h.syn last hmem hs'
  · intro s hs
    change s ∈ v.unacked ++ (init ++ [_]) at hs
    rw [hassoc] at hs
    obtain hs | hs := List.mem_append.mp hs
    · exact h.short s (hinitMem s hs)
    · obtain rfl := List.mem_singleton.mp hs
      exact h.short last hmem
  · intro hne
    obtain ⟨s, hs, hspare⟩ := h.spare hne
    rw [hunsent, List.getLast?_concat] at hs
    obtain rfl := Option.some_inj.mp hs
    exact ⟨_, List.getLast?_concat, hspare⟩

theorem tcpSendFin_sending (h : Sending w base x a n pcb.view) (hfin : pcb.fin = false) (mem : ℕ) :
    ((tcpSendFin pcb mem).1 = .ok ∧ Sending w base x a n (tcpSendFin pcb mem).2.view ∧
      (tcpSendFin pcb mem).2.fin = true) ∨
    (tcpSendFin pcb mem).1 ≠ .ok ∧ (tcpSendFin pcb mem).2.view = pcb.view := by
  rw [tcpSendFin]
  cases hlast : pcb.unsent.getLast? with
  | none => exact tcpEnqueueFlags_fin h hfin mem
  | some last =>
    dsimp only
    by_cases hplain : (!last.seg.syn && !last.seg.fin) = true
    · obtain ⟨init, hunsent⟩ := List.getLast?_eq_some_iff.mp hlast
      rw [if_pos hplain, hunsent, List.dropLast_concat]
      rw [Bool.and_eq_true, Bool.not_eq_true', Bool.not_eq_true'] at hplain
      exact .inl ⟨rfl, h.piggyback hfin hunsent hplain.1, rfl⟩
    · rw [if_neg hplain]
      exact tcpEnqueueFlags_fin h hfin mem

end Finish

theorem Sending.setState {v : SendView} (h : Sending w base x a n v) (state : TcpState) :
    Sending w base x a n { v with state := state } := { h with }

theorem Sending.rexmitRto {v : SendView} (h : Sending w base x a n v) :
    Sending w base x a n { v with unsent := v.unacked ++ v.unsent, unacked := [] } := by
  refine { h with unacked_le := ?_, spare := ?_ }
  · have hx := h.start_le
    have ha := h.acked_le
    simp only [span_nil]
    omega
  · intro hne
    obtain ⟨s, hs, hspare⟩ := h.spare hne
    refine ⟨s, ?_, hspare⟩
    dsimp only
    rw [List.getLast?_append, hs]
    rfl

theorem Sending.silent {v : SendView} (h : Sending w base x a n v) (hzero : v.mssLocal = 0) (ha : a = -1) : w = [] := by
  have hdata := h.chain.data
  have hstart := h.start_le
  have hempty : v.queue.flatMap (fun s => s.seg.p) = [] := by
    rw [List.flatMap_eq_nil_iff]
    intro s hs
    have hshort := h.short s hs
    rw [hzero] at hshort
    exact List.length_eq_zero_iff.mp (Nat.le_zero.mp hshort)
  rw [hempty, h.total, List.nil_append, show x.toNat = 0 by omega, List.drop_zero] at hdata
  rw [← hdata, List.drop_of_length_le]
  rw [SendView.stop]
  omega

section Stage

def Connecting (state : TcpState) : Prop := state = .synSent ∨ state = .synRcvd

structure Staged (w : List UInt8) (a : ℤ) (pcb : SendPcb) : Prop where
  closed : pcb.fin = true → ¬ Writable pcb.state
  connecting : Connecting pcb.state → w = [] ∧ a = -1
  silent : pcb.state = .synSent → pcb.sndWndMax = 0
  connected : ¬ Connecting pcb.state → 0 ≤ a

def SendPcb.stage (pcb : SendPcb) : TcpState × Bool × UInt16 := (pcb.state, pcb.fin, pcb.sndWndMax)

theorem Staged.congr {pcb' : SendPcb} (h : Staged w a pcb) (hstage : pcb'.stage = pcb.stage) : Staged w a pcb' := by
  have hstate : pcb'.state = pcb.state := congrArg Prod.fst hstage
  have hfin : pcb'.fin = pcb.fin := congrArg (fun p => p.2.1) hstage
  have hmax : pcb'.sndWndMax = pcb.sndWndMax := congrArg (fun p => p.2.2) hstage
  constructor
  · rw [hfin, hstate]
    exact h.closed
  · rw [hstate]
    exact h.connecting
  · rw [hstate, hmax]
    exact h.silent
  · rw [hstate]
    exact h.connected

theorem outputLoop_stage (wnd : UInt32) (pcb : SendPcb) (q : List OutSeg) :
    (outputLoop wnd pcb q).1.stage = pcb.stage := by
  induction q generalizing pcb with
  | nil => rfl
  | cons s rest ih =>
    rw [outputLoop]
    split_ifs
    · exact ih (outputSegment pcb s)
    · rfl

theorem tcpOutput_stage (pcb : SendPcb) (ackNow : Bool) : (tcpOutput pcb ackNow).1.stage = pcb.stage := by
  rw [tcpOutput]
  split_ifs
  · rfl
  · exact outputLoop_stage _ pcb pcb.unsent

end Stage

/-- Every segment sent carries the stream, and a live connection still holds what has not been acknowledged. -/
structure Sound (base : UInt32) (s : Sender) : Prop where
  wire : ∀ seg ∈ s.wire, ∃ y, Carries s.written base y seg ∧ y + seg.tcplen.toNat ≤ s.pcb.view.stop s.written
  queues : s.live = true → ∃ x a n, Sending s.written base x a n s.pcb.view ∧ Staged s.written a s.pcb

namespace Sound

variable {s : Sender}

theorem remove (h : Sound base s) : Sound base { s with live := false } :=
  ⟨h.wire, fun hlive => absurd hlive Bool.false_ne_true⟩

theorem same {pcb' : SendPcb} (h : Sound base s) (hview : pcb'.view = s.pcb.view) :
    Sound base { s with pcb := pcb' } := by
  have hstage : pcb'.stage = s.pcb.stage := congrArg (fun v : SendView => (v.state, v.fin, v.sndWndMax)) hview
  constructor
  · dsimp only
    rw [hview]
    exact h.wire
  · intro hlive
    obtain ⟨x, a, n, hsending, hstaged⟩ := h.queues hlive
    refine ⟨x, a, n, ?_, hstaged.congr hstage⟩
    dsimp only
    rw [hview]
    exact hsending

theorem transmit {v : SendView} {pcb' : SendPcb} {sent : List TcpSeg} (h : Sound base s)
    (hold : Sending s.written base x a n v) (hstop : v.fin = s.pcb.fin) (hfin : pcb'.fin = s.pcb.fin)
    (hsent : ∀ seg ∈ sent, ∃ t ∈ v.queue, t.seg = seg)
    (hnew : ∃ x a n, Sending s.written base x a n pcb'.view ∧ Staged s.written a pcb') :
    Sound base { s with pcb := pcb', wire := s.wire ++ sent } := by
  have hend : ({ s with pcb := pcb', wire := s.wire ++ sent } : Sender).pcb.view.stop s.written =
      s.pcb.view.stop s.written := by
    change (s.written.length : ℤ) + pcb'.fin.toNat = s.written.length + s.pcb.fin.toNat
    rw [hfin]
  have hend' : v.stop s.written = s.pcb.view.stop s.written := by
    change (s.written.length : ℤ) + v.fin.toNat = s.written.length + s.pcb.fin.toNat
    rw [hstop]
  refine ⟨?_, fun _ => hnew⟩
  intro seg hseg
  rw [hend]
  obtain hseg | hseg := List.mem_append.mp hseg
  · exact h.wire seg hseg
  · obtain ⟨t, ht, rfl⟩ := hsent seg hseg
    obtain ⟨y, hcarries, -, hle⟩ := hold.mem_stop ht
    rw [hend'] at hle
    exact ⟨y, hcarries, hle⟩

theorem tcpOutput (h : Sound base s) (hlive : s.live = true) (ackNow : Bool) : Sound base (s.tcpOutput ackNow) := by
  obtain ⟨x, a, n, hsending, hstaged⟩ := h.queues hlive
  obtain ⟨m, -, hnew, hsent⟩ := tcpOutput_sending hsending ackNow
  have hstage := tcpOutput_stage s.pcb ackNow
  exact h.transmit hsending rfl (congrArg (fun p => p.2.1) hstage) hsent ⟨x, a, m, hnew, hstaged.congr hstage⟩

theorem tcpSlowtmr (h : Sound base s) (hlive : s.live = true) (ackNow : Bool) : Sound base (s.tcpSlowtmr ackNow) := by
  obtain ⟨x, a, n, hsending, hstaged⟩ := h.queues hlive
  by_cases hnil : s.pcb.unacked = []
  · have hidle : s.tcpSlowtmr ackNow = { s with wire := s.wire ++ [] } := by
      rw [Sender.tcpSlowtmr, retransmit, if_pos hnil]
    rw [hidle]
    exact h.transmit hsending rfl rfl (fun seg hseg => absurd hseg List.not_mem_nil) ⟨x, a, n, hsending, hstaged⟩
  · rw [Sender.tcpSlowtmr, retransmit, if_neg hnil]
    dsimp only
    have hback : Sending s.written base x a n
        { s.pcb.view with unsent := s.pcb.unacked ++ s.pcb.unsent, unacked := [] } := hsending.rexmitRto
    generalize hpcb : (tcpRexmitRto { s.pcb with rtime := 0, ssthresh := _, cwnd := s.pcb.mss } : SendPcb) = pcb'
    have hview : pcb'.view = { s.pcb.view with unsent := s.pcb.unacked ++ s.pcb.unsent, unacked := [] } := by
      rw [← hpcb]
      rfl
    rw [← hview] at hback
    obtain ⟨m, -, hnew, hsent⟩ := tcpOutput_sending hback ackNow
    have hstage : (Lwip.tcpOutput pcb' ackNow).1.stage = s.pcb.stage := by
      rw [tcpOutput_stage, ← hpcb]
      rfl
    refine h.transmit hback ?_ (congrArg (fun p => p.2.1) hstage) hsent ⟨x, a, m, hnew, hstaged.congr hstage⟩
    rw [hview]
    rfl

theorem tcpWrite (h : Sound base s) (hlive : s.live = true) (hstate : s.pcb.state ≠ .synRcvd) (data : List UInt8)
    (more : Bool) (mem : ℕ) : Sound base (s.tcpWrite data more mem) := by
  obtain ⟨x, a, n, hsending, hstaged⟩ := h.queues hlive
  obtain ⟨hok, hnew, hfin, hst, hfin', hmax⟩ | ⟨hfail, hview⟩ := tcpWrite_sending hsending hstaged.closed data more mem
  · rw [Sender.tcpWrite, if_pos hok]
    constructor
    · intro seg hseg
      obtain ⟨y, hcarries, hle⟩ := h.wire seg hseg
      rw [SendView.stop, show s.pcb.view.fin = false from hfin, Bool.toNat_false, Nat.cast_zero, add_zero] at hle
      refine ⟨y, hcarries.grow hle data, ?_⟩
      dsimp only
      rw [SendView.stop, List.length_append]
      omega
    · intro _
      refine ⟨x, a, n, hnew, ?_⟩
      constructor
      · dsimp only
        rw [hfin', hst]
        exact hstaged.closed
      · dsimp only
        rw [hst]
        intro hconnecting
        have hsyn := hconnecting.resolve_right hstate
        obtain ⟨-, ha⟩ := hstaged.connecting hconnecting
        refine ⟨hnew.silent ?_ ha, ha⟩
        have hzero := hmax.trans (hstaged.silent hsyn)
        change min _ ((Lwip.tcpWrite s.pcb data more mem).2.sndWndMax.toNat / 2) = 0
        rw [hzero]
        exact Nat.min_zero _
      · dsimp only
        rw [hst, hmax]
        exact hstaged.silent
      · dsimp only
        rw [hst]
        exact hstaged.connected
  · rw [Sender.tcpWrite, if_neg hfail]
    exact h.same hview

theorem finish (h : Sound base s) (hlive : s.live = true) (hstate : Writable s.pcb.state)
    (hconnected : ¬ Connecting s.pcb.state) {state : TcpState} (hnew : ¬ Writable state) (mem : ℕ) (ackNow : Bool) :
    Sound base (s.finish state mem ackNow) := by
  obtain ⟨x, a, n, hsending, hstaged⟩ := h.queues hlive
  have hfin : s.pcb.fin = false := by
    rw [← Bool.not_eq_true]
    intro hfin
    exact hstaged.closed hfin hstate
  rw [Sender.finish]
  obtain ⟨hok, hsend, hfin'⟩ | ⟨hfail, hview⟩ := tcpSendFin_sending hsending hfin mem
  · rw [if_pos hok]
    have hqueued : Sound base { s with pcb := { (tcpSendFin s.pcb mem).2 with state := state } } := by
      refine ⟨fun seg hseg => ?_, fun _ => ⟨x, a, n, hsend.setState state, ?_⟩⟩
      · obtain ⟨y, hcarries, hle⟩ := h.wire seg hseg
        rw [SendView.stop, show s.pcb.view.fin = false from hfin] at hle
        refine ⟨y, hcarries, hle.trans ?_⟩
        change (s.written.length : ℤ) + false.toNat ≤ s.written.length + (tcpSendFin s.pcb mem).2.fin.toNat
        rw [Bool.toNat_false]
        omega
      · have hnot : ¬ Connecting state := by
          rintro (rfl | rfl)
          · exact hnew (by decide)
          · exact hnew (by decide)
        exact ⟨fun _ => hnew, fun hc => absurd hc hnot, fun hs => absurd (.inl hs) hnot,
          fun _ => hstaged.connected hconnected⟩
    exact hqueued.tcpOutput hlive ackNow
  · rw [if_neg hfail]
    exact h.same hview

theorem tcpClose (h : Sound base s) (hlive : s.live = true) (hstate : s.pcb.state ≠ .synRcvd) (rst : Bool) (mem : ℕ)
    (ackNow : Bool) : Sound base (s.tcpClose rst mem ackNow) := by
  rw [Sender.tcpClose]
  by_cases hrst : rst = true ∧ (s.pcb.state = .established ∨ s.pcb.state = .closeWait)
  · rw [if_pos hrst]
    exact h.remove
  rw [if_neg hrst]
  cases hst : s.pcb.state with
  | closed => exact h.remove
  | listen => exact h.remove
  | synSent => exact h.remove
  | synRcvd => exact absurd hst hstate
  | established =>
    exact h.finish hlive (by rw [hst]; decide) (by rw [hst, Connecting]; decide) (by decide) mem ackNow
  | closeWait =>
    exact h.finish hlive (by rw [hst]; decide) (by rw [hst, Connecting]; decide) (by decide) mem ackNow
  | finWait1 => exact h
  | finWait2 => exact h
  | closing => exact h
  | lastAck => exact h
  | timeWait => exact h

theorem probe_carries (hsending : Sending w base x a n pcb.view) (ha : 0 ≤ a) {mem : Bool} {seg : TcpSeg}
    (hseg : seg ∈ Lwip.tcpZeroWindowProbe pcb mem) :
    ∃ y, Carries w base y seg ∧ y + seg.tcplen.toNat ≤ pcb.view.stop w := by
  rw [Lwip.tcpZeroWindowProbe] at hseg
  cases hq : (pcb.unacked ++ pcb.unsent).head? with
  | none =>
    rw [hq] at hseg
    exact absurd hseg List.not_mem_nil
  | some s =>
    simp only [hq] at hseg
    have hmem : s ∈ pcb.view.queue := List.mem_of_mem_head? hq
    obtain ⟨y, hcarries, hafter, hle⟩ := hsending.mem_stop hmem
    have hlen := hcarries.tcplen
    obtain ⟨rfl, hsyn⟩ | ⟨hy, hg, hne⟩ := id hcarries
    · have hone : s.seg.tcplen.toNat = 1 := by rw [hsyn]; rfl
      omega
    rw [hg.syn, Bool.toNat_false, Nat.add_zero] at hlen
    split_ifs at hseg with hmem' hfin
    · exact absurd hseg List.not_mem_nil
    · obtain rfl := List.mem_singleton.mp hseg
      rw [Bool.and_eq_true, decide_eq_true_eq] at hfin
      have hnil : s.seg.p = [] := by
        rw [← List.length_eq_zero_iff, ← hg.len, hfin.2]
        rfl
      have hsame : (⟨s.seg.seqno, true, false, 0, []⟩ : TcpSeg) = s.seg := by
        rw [← hnil, ← hfin.1, ← hfin.2, ← hg.syn]
      rw [hsame]
      exact ⟨y, hcarries, hle⟩
    · obtain rfl := List.mem_singleton.mp hseg
      have hpos : 0 < s.seg.p.length := by
        obtain hpos | hf := hne
        · exact hpos
        · rw [← hg.len, Nat.pos_iff_ne_zero]
          intro hzero
          refine hfin ?_
          rw [hf, Bool.true_and, decide_eq_true_eq]
          exact UInt16.toNat_inj.mp hzero
      have hcut := hg.withoutFin.cut (show (1 : UInt16).toNat ≤ s.seg.p.length from hpos) rfl
      have hbyte : Genuine w base y.toNat ⟨s.seg.seqno, false, false, 1, s.seg.p.take 1⟩ := by
        have hsyn := hg.syn
        simp only [TcpSeg.cut, hsyn] at hcut
        exact hcut
      have hone : (s.seg.p.take 1).length = 1 := List.length_take_of_le hpos
      refine ⟨y, .inr ⟨hy, hbyte, .inl ?_⟩, ?_⟩
      · rw [hone]
        exact Nat.one_pos
      · rw [hbyte.tcplen, hone, Bool.toNat_false]
        omega

theorem tcpZeroWindowProbe (h : Sound base s) (hlive : s.live = true) (hstate : ¬ Connecting s.pcb.state) (mem : Bool) :
    Sound base (s.tcpZeroWindowProbe mem) := by
  obtain ⟨x, a, n, hsending, hstaged⟩ := h.queues hlive
  refine ⟨fun seg hseg => ?_, h.queues⟩
  obtain hseg | hseg := List.mem_append.mp hseg
  · exact h.wire seg hseg
  · exact probe_carries hsending (hstaged.connected hstate) hseg

end Sound

end LogoCore.Lwip
