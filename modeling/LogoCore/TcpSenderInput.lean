import LogoCore.TcpTransmission

namespace LogoCore.Lwip

open Ethernet SequenceNumbers

variable {w : List UInt8} {base : UInt32} {x a n : ℤ} {pcb : SendPcb} {s : Sender} {q : AckSegment}

/-- The first unacknowledged segment waits at the front of the unsent ones, and the next `tcp_output` sends it. -/
structure Lifted (base : UInt32) (s : Sender) : Prop where
  wire : ∀ seg ∈ s.wire, ∃ y, Carries s.written base y seg ∧ y + seg.tcplen.toNat ≤ s.pcb.view.stop s.written
  queues : ∃ x a n v sg rest, Sending s.written base x a n v ∧ Staged s.written a s.pcb ∧ v.unacked = sg :: rest ∧
    s.pcb.view = v.lifted sg rest ∧ fitsWindow s.pcb (min s.pcb.sndWnd s.pcb.cwnd).toUInt32 sg = true ∧
    tcpDoOutputNagle s.pcb = true

theorem Lifted.tcpOutput (h : Lifted base s) (ackNow : Bool) : Sound base (s.tcpOutput ackNow) := by
  obtain ⟨x, a, n, v, sg, rest, hsending, hstaged, hunacked, hlifted, hfits, hnagle⟩ := h.queues
  obtain ⟨m, -, hnew, hsent⟩ := tcpOutput_lifted hsending hunacked hlifted hfits hnagle ackNow
  have hstage := tcpOutput_stage s.pcb ackNow
  have hfin : (Lwip.tcpOutput s.pcb ackNow).1.fin = s.pcb.fin := congrArg (fun p => p.2.1) hstage
  have hfin' : v.fin = s.pcb.fin := (congrArg SendView.fin hlifted).symm
  refine ⟨fun seg hseg => ?_, fun _ => ⟨x, a, m, hnew, hstaged.congr hstage⟩⟩
  have hend : (s.tcpOutput ackNow).pcb.view.stop s.written = s.pcb.view.stop s.written := by
    change (s.written.length : ℤ) + (Lwip.tcpOutput s.pcb ackNow).1.fin.toNat = s.written.length + s.pcb.fin.toNat
    rw [hfin]
  have hend' : v.stop s.written = s.pcb.view.stop s.written := by
    change (s.written.length : ℤ) + v.fin.toNat = s.written.length + s.pcb.fin.toNat
    rw [hfin']
  change ∃ y, Carries s.written base y seg ∧ y + seg.tcplen.toNat ≤ (s.tcpOutput ackNow).pcb.view.stop s.written
  rw [hend]
  obtain hseg | hseg := List.mem_append.mp hseg
  · exact h.wire seg hseg
  · obtain ⟨t, ht, rfl⟩ := hsent seg hseg
    obtain ⟨y, hcarries, -, hle⟩ := hsending.mem_stop ht
    rw [hend'] at hle
    exact ⟨y, hcarries, hle⟩

theorem fits_min {v : SendView} {sg : OutSeg} {rest : List OutSeg} (h : Sending w base x a n v)
    (hunacked : v.unacked = sg :: rest) (ha : 0 ≤ a) (hlast : pcb.lastack = v.lastack) (hmss : pcb.mss = v.mss)
    (hcwnd : pcb.mss ≤ pcb.cwnd) (hfits : fitsWindow pcb pcb.sndWnd.toUInt32 sg = true) :
    fitsWindow pcb (min pcb.sndWnd pcb.cwnd).toUInt32 sg = true := by
  have hqueue : v.queue = sg :: (rest ++ v.unsent) := by rw [SendView.queue, hunacked, List.cons_append]
  have hchain := h.chain
  have hfirst := h.first sg (by rw [hqueue]; rfl)
  have hshort := h.short sg (by rw [hqueue]; exact List.mem_cons_self)
  have hstart := h.start_le
  have hmss' : v.mssLocal ≤ v.mss.toNat := Nat.min_le_left _ _
  rw [hqueue] at hchain
  have hcarries := hchain.1
  have hlen := hcarries.len
  have hlen' := hcarries.tcplen
  have hfin : sg.seg.fin.toNat ≤ 1 := Bool.toNat_le _
  have hsyn : sg.seg.syn = false := by
    obtain ⟨rfl, hseg⟩ | ⟨-, hg, -⟩ := id hcarries
    · have hone : sg.seg.tcplen.toNat = 1 := by
        rw [hseg]
        rfl
      omega
    · exact hg.syn
  rw [hsyn, Bool.toNat_false] at hlen'
  change fitsWindow pcb (if pcb.sndWnd ≤ pcb.cwnd then pcb.sndWnd else pcb.cwnd).toUInt32 sg = true
  split_ifs
  · exact hfits
  · have hle := UInt16.le_iff_toNat_le.mp hcwnd
    have hsub := toNat_number_sub base x a
    rw [hmss] at hle
    rw [fitsWindow, decide_eq_true_eq, hcarries.seqno, hlast, h.lastack, UInt32.le_iff_toNat_le, UInt32.toNat_add,
      UInt16.toNat_toUInt32, UInt16.toNat_toUInt32]
    omega

theorem nagle_infr (h : pcb.infr = true) : tcpDoOutputNagle pcb = true := by
  simp only [tcpDoOutputNagle, h, Bool.or_true, Bool.true_or]

theorem nagle_empty (h : pcb.unacked = []) : tcpDoOutputNagle pcb = true := by
  simp only [tcpDoOutputNagle, h, List.isEmpty_nil, Bool.true_or]

theorem Sending.syn_only {v : SendView} (h : Sending [] base x (-1) n v) (hfin : v.fin = false) :
    x = -1 ∧ ∃ sg, v.queue = [sg] ∧ sg.seg = ⟨number base (-1), false, true, 0, []⟩ := by
  have htotal := h.total
  have hchain := h.chain
  have hfirst := h.first
  have hstart := h.start_le
  rw [SendView.stop, hfin] at htotal
  simp only [List.length_nil, Bool.toNat_false] at htotal
  cases hq : v.queue with
  | nil =>
    rw [hq, span_nil] at htotal
    omega
  | cons sg rest =>
    rw [hq] at hchain hfirst htotal
    rw [span_cons] at htotal
    have hlow := hchain.1.neg_one_le
    obtain rfl : x = -1 := by omega
    have hpos := hchain.1.tcplen_pos
    have hrest : rest = [] := by
      cases rest with
      | nil => rfl
      | cons t rest =>
        have hpos' := hchain.2.1.tcplen_pos
        rw [span_cons] at htotal
        omega
    obtain ⟨-, hseg⟩ | ⟨hx, -⟩ := hchain.1
    · exact ⟨rfl, sg, by rw [hrest], hseg⟩
    · omega

theorem Staged.fin_eq_false (h : Staged w a pcb) (hstate : Writable pcb.state) : pcb.fin = false := by
  rw [← Bool.not_eq_true]
  intro hfin
  exact h.closed hfin hstate

theorem effSendMss_le (mss : UInt16) : (SendPcb.effSendMss mss).toNat ≤ tcpMss := by
  rw [SendPcb.effSendMss]
  split_ifs with hlt
  · have hlt := UInt16.lt_iff_toNat_lt.mp hlt
    exact hlt.le.trans (by decide)
  · decide

theorem synAcked_sending (h : Sending [] base x (-1) n pcb.view) (hfin : pcb.fin = false) (q : AckSegment) :
    (pcb.synAcked q = pcb) ∨ (pcb.synAcked q).state = .established ∧ (pcb.synAcked q).fin = false ∧
      ∃ m, Sending [] base 0 0 m (pcb.synAcked q).view := by
  obtain ⟨rfl, sg, hqueue, hseg⟩ := h.syn_only hfin
  rw [SendPcb.synAcked]
  cases hunacked : pcb.unacked with
  | nil => exact .inl rfl
  | cons rseg rest =>
    dsimp only
    by_cases hack : q.ackno = rseg.seg.seqno + 1
    · rw [if_pos hack]
      refine .inr ⟨rfl, hfin, n, ?_⟩
      have hcons : rseg :: (rest ++ pcb.unsent) = [sg] := by
        rw [← hqueue, SendView.queue, ← List.cons_append, ← hunacked]
        rfl
      obtain ⟨rfl, hnil⟩ := List.cons.inj hcons
      obtain ⟨rfl, hunsent⟩ := List.append_eq_nil_iff.mp hnil
      have hcounted : pcb.sndQueuelen.toNat = pbufs pcb.view.queue := h.counted
      have hclen := h.syn rseg (by rw [hqueue]; exact List.mem_cons_self) (by rw [hseg])
      have hone : rseg.seg.tcplen.toNat = 1 := by
        rw [hseg]
        rfl
      have hsent := h.sent_le
      have hunacked' : -1 + (span pcb.unacked : ℤ) ≤ n := h.unacked_le
      obtain ⟨l, hl, hlow, hhigh, hbuf⟩ := h.buffer
      have hl : pcb.sndLbb = number base l := hl
      have hbuf : (pcb.sndBuf.toNat : ℤ) = tcpSndBuf + -1 - l := hbuf
      rw [SendView.stop, show pcb.view.fin = false from hfin] at hsent hhigh
      rw [hunacked, span_cons, span_nil, hone] at hunacked'
      rw [hqueue, pbufs_cons, hclen] at hcounted
      simp only [List.length_nil, Bool.toNat_false] at hsent hhigh hlow
      have hzero : pbufs ([] : List OutSeg) = 0 := rfl
      have hone' : (1 : UInt16).toNat = 1 := rfl
      have hqueuelen : (pcb.sndQueuelen - 1).toNat = 0 := by
        rw [UInt16.toNat_sub_of_le _ _ (UInt16.le_iff_toNat_le.mpr (by omega)), hone']
        omega
      have hempty : ∀ sg : OutSeg, sg ∉ ([] : List OutSeg) ++ pcb.unsent := by
        rw [hunsent]
        exact fun sg => List.not_mem_nil
      refine
        { chain := ?_
          total := ?_
          first := ?_
          start_le := le_rfl
          acked_le := by omega
          unacked_le := by
            change 0 + (span [] : ℤ) ≤ n
            rw [span_nil]
            omega
          sent_le := ?_
          lastack := ?_
          sndNxt := h.sndNxt
          buffer := ⟨l, hl, hlow, ?_, ?_⟩
          counted := ?_
          counted_le := ?_
          syn := fun sg hsg => absurd hsg (hempty sg)
          mss := effSendMss_le _
          short := fun sg hsg => absurd hsg (hempty sg)
          spare := fun hne => absurd (h.oversize_eq_zero hunsent) hne }
      · change Chain [] base 0 ([] ++ pcb.unsent)
        rw [hunsent]
        trivial
      · change 0 + (span ([] ++ pcb.unsent) : ℤ) = (0 : ℕ) + pcb.fin.toNat
        rw [hunsent, hfin]
        rfl
      · intro sg hsg
        exact absurd (List.mem_of_mem_head? hsg) (hempty sg)
      · change n ≤ (0 : ℕ) + pcb.fin.toNat
        rw [hfin]
        simp only [Bool.toNat_false]
        omega
      · change q.ackno = _
        rw [hack, hseg]
        exact number_add_one base (-1)
      · change l ≤ (0 : ℕ) + pcb.fin.toNat
        rw [hfin]
        simp only [Bool.toNat_false]
        omega
      · change ((pcb.sndBuf + 1).toNat : ℤ) = _
        simp only [tcpSndBuf] at hbuf ⊢
        rw [UInt16.toNat_add, hone']
        omega
      · change (pcb.sndQueuelen - 1).toNat = pbufs ([] ++ pcb.unsent)
        rw [hqueuelen, hunsent]
        rfl
      · change (pcb.sndQueuelen - 1).toNat ≤ _
        rw [hqueuelen]
        exact Nat.zero_le _
    · rw [if_neg hack]
      exact .inl rfl

def LeavesRoom (pcb : SendPcb) (q : AckSegment) : Prop :=
  q.ack = true → ThirdDuplicate pcb q.ackno → ∀ sg, pcb.unacked.head? = some sg →
    fitsWindow pcb (updateWindow pcb q.seqno q.ackno q.wnd).sndWnd.toUInt32 sg = true

/-- What the peer may send to this side: no acknowledgement out of all proportion, no smaller MSS in the middle of the
connection, and no window that takes room back from a fast retransmission. -/
structure Acceptable (s : Sender) (q : AckSegment) : Prop where
  ackno : q.ack = true → -2 ^ 30 ≤ (q.ackno - s.pcb.lastack).toInt32.toInt ∧
    (q.ackno - s.pcb.lastack).toInt32.toInt ≤ 2 ^ 30
  mss : s.pcb.state ≠ .synSent → s.pcb.mss ≤ (s.pcb.parseopt q.mssOption).mss
  window : LeavesRoom s.pcb q

theorem Sending.setMss {v : SendView} (h : Sending w base x a n v) {mss : UInt16} (hle : mss.toNat ≤ tcpMss)
    (hmss : v.mss ≤ mss ∨ w = []) : Sending w base x a n { v with mss := mss } := by
  obtain hmss | rfl := hmss
  · have hgrow : v.mssLocal ≤ SendView.mssLocal { v with mss := mss } := by
      have hmss := UInt16.le_iff_toNat_le.mp hmss
      simp only [SendView.mssLocal]
      omega
    refine { h with mss := hle, short := fun sg hsg => (h.short sg hsg).trans hgrow, spare := fun hne => ?_ }
    obtain ⟨sg, hlast, hpos, hroom, hfit⟩ := h.spare hne
    exact ⟨sg, hlast, hpos, hroom, hfit.trans hgrow⟩
  · have hnone : ∀ sg ∈ v.queue, sg.seg.p.length = 0 := by
      intro sg hsg
      obtain ⟨y, hcarries, -⟩ := h.chain.mem hsg
      have hend := hcarries.stop_le
      obtain ⟨-, hseg⟩ | ⟨hy, -⟩ := id hcarries
      · rw [hseg]
        rfl
      · rw [List.length_nil] at hend
        omega
    refine { h with mss := hle, short := fun sg hsg => (hnone sg hsg).le.trans (Nat.zero_le _), spare := fun hne => ?_ }
    obtain ⟨sg, hlast, hpos, -⟩ := h.spare hne
    have hzero := hnone sg (List.mem_append_right _ (List.mem_of_getLast? hlast))
    omega

theorem parseopt_mss_le (hmss : pcb.mss.toNat ≤ tcpMss) (option : Option UInt16) :
    (pcb.parseopt option).mss.toNat ≤ tcpMss := by
  cases option with
  | none => exact hmss
  | some mss =>
    simp only [SendPcb.parseopt]
    split_ifs with hlarge
    · decide
    · rw [not_or, UInt16.not_lt] at hlarge
      exact UInt16.le_iff_toNat_le.mp hlarge.1

theorem parseopt_eq (pcb : SendPcb) (option : Option UInt16) :
    pcb.parseopt option = { pcb with mss := (pcb.parseopt option).mss } := by
  cases option <;> rfl

theorem parseopt_frame (pcb : SendPcb) (option : Option UInt16) : (pcb.parseopt option).lastack = pcb.lastack ∧
    (pcb.parseopt option).state = pcb.state := by
  cases option <;> exact ⟨rfl, rfl⟩

theorem LeavesRoom.parseopt (h : LeavesRoom pcb q) (option : Option UInt16) : LeavesRoom (pcb.parseopt option) q := by
  cases option with
  | none => exact h
  | some mss =>
    intro hq hthird sg hsg
    have hfits := h hq ⟨hthird.lastack, hthird.dupacks, hthird.infr⟩ sg hsg
    have hwnd : (updateWindow (pcb.parseopt (some mss)) q.seqno q.ackno q.wnd).sndWnd =
        (updateWindow pcb q.seqno q.ackno q.wnd).sndWnd := by
      rw [updateWindow, updateWindow, apply_ite SendPcb.sndWnd, apply_ite SendPcb.sndWnd]
      rfl
    rw [hwnd]
    exact hfits

theorem Sound.parseopt (h : Sound base s)
    (hmss : s.pcb.state ≠ .synSent → s.pcb.mss ≤ (s.pcb.parseopt q.mssOption).mss) :
    Sound base { s with pcb := s.pcb.parseopt q.mssOption } := by
  have hpcb := parseopt_eq s.pcb q.mssOption
  rw [hpcb]
  refine ⟨h.wire, fun hlive => ?_⟩
  obtain ⟨x, a, n, hsending, hstaged⟩ := h.queues hlive
  refine ⟨x, a, n, hsending.setMss (parseopt_mss_le hsending.mss _) ?_, hstaged.congr rfl⟩
  by_cases hstate : s.pcb.state = .synSent
  · exact .inr (hstaged.connecting (.inl hstate)).1
  · exact .inl (hmss hstate)

structure Onward (pcb : SendPcb) (state : TcpState) : Prop where
  connected : ¬ Connecting state
  closed : pcb.fin = true → ¬ Writable state

theorem onward_of_not_writable {state : TcpState} (h : ¬ Writable state) : Onward pcb state := by
  refine ⟨?_, fun _ => h⟩
  rintro (rfl | rfl)
  · exact h (by decide)
  · exact h (by decide)

theorem onward_closeWait (hfin : pcb.fin = false) : Onward pcb .closeWait :=
  ⟨by rw [Connecting]; decide, fun hf => absurd (hfin.symm.trans hf) Bool.false_ne_true⟩

theorem Sound.receive (h : Sound base s) (hlive : s.live = true) (hconnected : ¬ Connecting s.pcb.state)
    (hack : q.ack = true → -2 ^ 30 ≤ (q.ackno - s.pcb.lastack).toInt32.toInt ∧
      (q.ackno - s.pcb.lastack).toInt32.toInt ≤ 2 ^ 30)
    (hwindow : LeavesRoom s.pcb q)
    {state : TcpState} (hstate : Onward s.pcb state) :
    Sound base { s with pcb := { s.pcb.receive q with state := state } } ∨
      Lifted base { s with pcb := { s.pcb.receive q with state := state } } ∧ q.tcplen = 0 ∧
        (s.pcb.receive q).acked = 0 := by
  obtain ⟨x, a, n, hsending, hstaged⟩ := h.queues hlive
  have ha := hstaged.connected hconnected
  by_cases hq : q.ack = true
  · obtain ⟨hlow, hhigh⟩ := hack hq
    have hlast : s.pcb.lastack = number base a := hsending.lastack
    rw [hlast] at hlow hhigh
    generalize hk : a + (q.ackno - number base a).toInt32.toInt = k
    have hackno : q.ackno = number base k := by rw [← hk, number_add_toInt_sub]
    have hreceive : s.pcb.receive q = receiveAck s.pcb q.seqno (number base k) q.wnd q.tcplen := by
      rw [SendPcb.receive, if_pos hq, hackno]
    obtain ⟨hst, hfin, hcases⟩ :=
      receiveAck_cases hsending (by omega : a - 2 ^ 30 ≤ k) (by omega) q.seqno q.wnd q.tcplen
    rw [← hreceive] at hst hfin hcases
    have hstage : ∀ {a : ℤ}, 0 ≤ a → Staged s.written a { s.pcb.receive q with state := state } := fun {a} ha =>
      ⟨fun hf => hstate.closed (hfin.symm.trans hf), fun hc => absurd hc hstate.connected,
        fun hs => absurd (.inl hs) hstate.connected, fun _ => ha⟩
    have hwire : ∀ seg ∈ s.wire, ∃ y, Carries s.written base y seg ∧
        y + seg.tcplen.toNat ≤ ({ s.pcb.receive q with state := state } : SendPcb).view.stop s.written := by
      have hend : ({ s.pcb.receive q with state := state } : SendPcb).view.stop s.written =
          s.pcb.view.stop s.written := by
        change (s.written.length : ℤ) + (s.pcb.receive q).fin.toNat = s.written.length + s.pcb.fin.toNat
        rw [hfin]
      rw [hend]
      exact h.wire
    obtain ⟨hak, hkn, x', hnew⟩ | ⟨-, hsame | ⟨v, sg, rest, hold, hunacked, hlifted, hthird, hqueue, hwnd, hafter, hmss,
      hlen, hacked⟩⟩ := hcases
    · exact .inl ⟨hwire, fun _ => ⟨x', k, n, hnew.setState state, hstage (by omega)⟩⟩
    · exact .inl ⟨hwire, fun _ => ⟨x, a, n, hsame.setState state, hstage ha⟩⟩
    · refine .inr ⟨⟨hwire, x, a, n, { v with state := state }, sg, rest, hold.setState state, hstage ha, hunacked,
        ?_, ?_, ?_⟩, hlen, hacked⟩
      · change ({ (s.pcb.receive q).view with state := state } : SendView) = _
        rw [hlifted]
        rfl
      · have hlastack : (s.pcb.receive q).lastack = v.lastack := congrArg SendView.lastack hlifted
        rw [← hackno] at hthird hwnd
        have hfits := hwindow hq hthird sg (by rw [hqueue]; rfl)
        rw [fitsWindow, hlast, ← hold.lastack, ← hlastack, ← hwnd] at hfits
        exact fits_min hold hunacked ha hlastack (congrArg SendView.mss hlifted) hmss hfits
      · exact nagle_infr hafter
  · have hreceive : s.pcb.receive q = s.pcb := by rw [SendPcb.receive, if_neg hq]
    rw [hreceive]
    exact .inl ⟨h.wire, fun _ => ⟨x, a, n, hsending.setState state, hstate.closed, fun hc => absurd hc hstate.connected,
      fun hs => absurd (.inl hs) hstate.connected, fun _ => ha⟩⟩

theorem Sound.receive_state (h : Sound base s) (hlive : s.live = true)
    (hack : q.ack = true → -2 ^ 30 ≤ (q.ackno - s.pcb.lastack).toInt32.toInt ∧
      (q.ackno - s.pcb.lastack).toInt32.toInt ≤ 2 ^ 30) : (s.pcb.receive q).state = s.pcb.state := by
  rw [SendPcb.receive]
  split_ifs with hq
  · obtain ⟨x, a, n, hsending, -⟩ := h.queues hlive
    obtain ⟨hlow, hhigh⟩ := hack hq
    have hlast : s.pcb.lastack = number base a := hsending.lastack
    rw [hlast] at hlow hhigh
    rw [← number_add_toInt_sub base q.ackno a]
    exact (receiveAck_cases hsending (by omega) (by omega) q.seqno q.wnd q.tcplen).1
  · rfl

theorem Sound.accepted (h : Sound base s) (hlive : s.live = true) (hstate : s.pcb.state = .synRcvd) (hq : q.ack = true)
    (hlow : -2 ^ 30 ≤ (q.ackno - s.pcb.lastack).toInt32.toInt)
    (hhigh : (q.ackno - s.pcb.lastack).toInt32.toInt ≤ 2 ^ 30)
    (hbetween : between q.ackno (s.pcb.lastack + 1) s.pcb.sndNxt = true) :
    Sound base { s with pcb := s.pcb.accepted q } := by
  obtain ⟨x, a, n, hsending, hstaged⟩ := h.queues hlive
  obtain ⟨-, ha⟩ := hstaged.connecting (.inr hstate)
  have hfin := hstaged.fin_eq_false (by rw [hstate]; decide)
  have hlast : s.pcb.lastack = number base a := hsending.lastack
  have hnxt : s.pcb.sndNxt = number base n := hsending.sndNxt
  have hbound := hsending.span_queue_le
  have hle := hsending.acked_le
  have hn := hsending.sent_le
  rw [hlast] at hlow hhigh
  generalize hk : a + (q.ackno - number base a).toInt32.toInt = k
  have hackno : q.ackno = number base k := by rw [← hk, number_add_toInt_sub]
  have hnew : a < k ∧ k ≤ n := by
    have hlow' : Near k (a + 1) := by
      constructor <;> omega
    have hhigh' : Near k n := by
      constructor <;> omega
    rw [hackno, hlast, number_add_one, hnxt, between_number hlow' hhigh', decide_eq_true_eq] at hbetween
    omega
  have hest : Sending s.written base x a n ({ s.pcb with state := .established } : SendPcb).view :=
    hsending.setState .established
  obtain ⟨hst, hfin', ⟨-, -, x', hack⟩ | ⟨hnot, -⟩⟩ :=
    receiveAck_cases hest (by omega : a - 2 ^ 30 ≤ k) (by omega) q.seqno q.wnd q.tcplen
  · have hreceive : SendPcb.receive { s.pcb with state := .established } q =
        receiveAck { s.pcb with state := .established } q.seqno (number base k) q.wnd q.tcplen := by
      rw [SendPcb.receive, if_pos hq, hackno]
    rw [SendPcb.accepted, hreceive]
    generalize receiveAck { s.pcb with state := .established } q.seqno (number base k) q.wnd q.tcplen = pcb'
      at hst hfin' hack
    have hnofin : pcb'.fin = false := hfin'.trans hfin
    have hstate' : ∀ state, state = (if q.gotFin = true then TcpState.closeWait else pcb'.state) →
        ¬ Connecting state := by
      intro state hs
      rw [hs, hst]
      split_ifs
      · rw [Connecting]
        decide
      · change ¬ Connecting .established
        rw [Connecting]
        decide
    constructor
    · intro seg hseg
      obtain ⟨y, hcarries, hend⟩ := h.wire seg hseg
      refine ⟨y, hcarries, hend.trans_eq ?_⟩
      change (s.written.length : ℤ) + s.pcb.fin.toNat = s.written.length + pcb'.fin.toNat
      rw [hnofin, hfin]
    · intro _
      refine ⟨x', k, n, hack.setState _, ?_, ?_, ?_, fun _ => by omega⟩
      · intro hf
        exact absurd (hnofin.symm.trans hf) Bool.false_ne_true
      · intro hc
        exact absurd hc (hstate' _ rfl)
      · intro hs
        exact absurd (.inl hs) (hstate' _ rfl)
  · exact absurd hnew hnot

theorem Sound.rexmitSyn (h : Sound base s) (hlive : s.live = true) (hstate : s.pcb.state = .synRcvd) :
    Sound base { s with pcb := tcpRexmit s.pcb } ∨ Lifted base { s with pcb := tcpRexmit s.pcb } := by
  obtain ⟨x, a, n, hsending, hstaged⟩ := h.queues hlive
  cases hunacked : s.pcb.unacked with
  | nil =>
    have hsame : tcpRexmit s.pcb = s.pcb := by simp only [tcpRexmit, hunacked]
    rw [hsame]
    exact .inl h
  | cons sg rest =>
    have hview := tcpRexmit_view hsending hunacked
    obtain ⟨hw, ha⟩ := hstaged.connecting (.inr hstate)
    have hfin := hstaged.fin_eq_false (by rw [hstate]; decide)
    have hstage : (tcpRexmit s.pcb).stage = s.pcb.stage :=
      congrArg (fun v : SendView => (v.state, v.fin, v.sndWndMax)) hview
    have honly := hsending
    rw [hw, ha] at honly
    obtain ⟨hx, sg', hqueue, hseg⟩ := honly.syn_only hfin
    have hcons : sg :: (rest ++ s.pcb.unsent) = [sg'] := by
      rw [← hqueue, SendView.queue, ← List.cons_append, ← hunacked]
      rfl
    obtain ⟨rfl, hnil⟩ := List.cons.inj hcons
    obtain ⟨rfl, -⟩ := List.append_eq_nil_iff.mp hnil
    refine .inr ⟨?_, x, a, n, s.pcb.view, sg, [], hsending, hstaged.congr hstage, hunacked, hview, ?_, ?_⟩
    · intro seg hseg'
      obtain ⟨y, hcarries, hend⟩ := h.wire seg hseg'
      refine ⟨y, hcarries, hend.trans_eq ?_⟩
      change (s.written.length : ℤ) + s.pcb.fin.toNat = s.written.length + (tcpRexmit s.pcb).fin.toNat
      rw [show (tcpRexmit s.pcb).fin = s.pcb.fin from congrArg (fun p => p.2.1) hstage]
    · have hlast : (tcpRexmit s.pcb).lastack = number base (-1) := by
        rw [← ha]
        exact (congrArg SendView.lastack hview).trans hsending.lastack
      rw [fitsWindow, decide_eq_true_eq, hseg, hlast, UInt32.sub_self]
      exact UInt32.le_iff_toNat_le.mpr (Nat.zero_le _)
    · exact nagle_empty (congrArg SendView.unacked hview)

theorem undisturbed_of_connected {s' : Sender} (hconnected : ¬ Connecting s.pcb.state) (hacked : s'.pcb.acked = 0)
    (hlen : q.tcplen = 0) : Sender.Undisturbed s q s' := by
  refine ⟨fun hs => hconnected (.inl hs), ?_⟩
  rw [if_neg fun hs => hconnected (.inr hs)]
  exact ⟨hacked, hlen⟩

/-- After `tcp_process` the queues are in order, or the `tcp_output` that follows at once puts them in order. -/
def Processed (base : UInt32) (s : Sender) (q : AckSegment) (s' : Sender) : Prop :=
  Sound base s' ∨ Lifted base s' ∧ s'.live = true ∧ Sender.Undisturbed s q s'

theorem processed_receive (h : Sound base s) (hlive : s.live = true) (hconnected : ¬ Connecting s.pcb.state)
    (hack : q.ack = true → -2 ^ 30 ≤ (q.ackno - s.pcb.lastack).toInt32.toInt ∧
      (q.ackno - s.pcb.lastack).toInt32.toInt ≤ 2 ^ 30)
    (hwindow : LeavesRoom s.pcb q) :
    Processed base s q { s with pcb := s.pcb.receive q } ∧ ∀ state, Onward s.pcb state →
      Processed base s q { s with pcb := { s.pcb.receive q with state := state } } := by
  have hmove : ∀ state, Onward s.pcb state →
      Processed base s q { s with pcb := { s.pcb.receive q with state := state } } := by
    intro state hstate
    obtain hsound | ⟨hlifted, hlen, hacked⟩ := h.receive hlive hconnected hack hwindow hstate
    · exact .inl hsound
    · exact .inr ⟨hlifted, hlive, undisturbed_of_connected hconnected hacked hlen⟩
  refine ⟨?_, hmove⟩
  have hstate := h.receive_state hlive hack
  obtain ⟨x, a, n, -, hstaged⟩ := h.queues hlive
  refine hmove (s.pcb.receive q).state ⟨?_, ?_⟩
  · rw [hstate]
    exact hconnected
  · rw [hstate]
    exact hstaged.closed

theorem processState_processed (h : Sound base s) (hlive : s.live = true)
    (hack : q.ack = true → -2 ^ 30 ≤ (q.ackno - s.pcb.lastack).toInt32.toInt ∧
      (q.ackno - s.pcb.lastack).toInt32.toInt ≤ 2 ^ 30)
    (hwindow : LeavesRoom s.pcb q) :
    Processed base s q (s.processState q) := by
  have hreceive := fun hconnected => processed_receive h hlive hconnected hack hwindow
  obtain ⟨x, a, n, hsending, hstaged⟩ := h.queues hlive
  rw [Sender.processState]
  cases hst : s.pcb.state with
  | closed => exact .inl h
  | listen => exact .inl h
  | timeWait => exact .inl h
  | synSent =>
    dsimp only
    split_ifs
    · refine .inl ?_
      obtain ⟨hw, ha⟩ := hstaged.connecting (.inl hst)
      have hfin := hstaged.fin_eq_false (by rw [hst]; decide)
      have honly := hsending
      rw [hw, ha] at honly
      obtain hsame | ⟨hstate, hfin', m, hnew⟩ := synAcked_sending honly hfin q
      · rw [hsame]
        exact h
      · have hnot : ¬ Connecting (s.pcb.synAcked q).state := by
          rw [hstate, Connecting]
          decide
        constructor
        · intro seg hseg
          obtain ⟨y, hcarries, hend⟩ := h.wire seg hseg
          refine ⟨y, hcarries, hend.trans_eq ?_⟩
          change (s.written.length : ℤ) + s.pcb.fin.toNat = s.written.length + (s.pcb.synAcked q).fin.toNat
          rw [hfin', hfin]
        · intro _
          refine ⟨0, 0, m, ?_, fun hf => absurd (hfin'.symm.trans hf) Bool.false_ne_true, fun hc => absurd hc hnot,
            fun hs => absurd (.inl hs) hnot, fun _ => le_rfl⟩
          dsimp only
          rw [hw]
          exact hnew
    · exact .inl h
  | synRcvd =>
    dsimp only
    split_ifs with hq hbetween hagain
    · exact .inl (h.accepted hlive hst hq (hack hq).1 (hack hq).2 hbetween)
    · exact .inl h
    · obtain hsound | hlifted := h.rexmitSyn hlive hst
      · exact .inl hsound
      · refine .inr ⟨hlifted, hlive, by rw [hst]; decide, ?_⟩
        rw [if_pos hst]
        simpa using hq
    · exact .inl h
  | established =>
    have hconnected : ¬ Connecting s.pcb.state := by rw [hst, Connecting]; decide
    have hfin := hstaged.fin_eq_false (by rw [hst]; decide)
    dsimp only
    split_ifs
    · exact (hreceive hconnected).2 _ (onward_closeWait hfin)
    · exact (hreceive hconnected).1
  | closeWait =>
    have hconnected : ¬ Connecting s.pcb.state := by rw [hst, Connecting]; decide
    have hfin := hstaged.fin_eq_false (by rw [hst]; decide)
    dsimp only
    split_ifs
    · exact (hreceive hconnected).2 _ (onward_closeWait hfin)
    · exact (hreceive hconnected).1
  | finWait1 =>
    have hconnected : ¬ Connecting s.pcb.state := by rw [hst, Connecting]; decide
    dsimp only
    split_ifs
    · exact .inl h.remove
    · exact (hreceive hconnected).2 _ (onward_of_not_writable (by decide))
    · exact (hreceive hconnected).2 _ (onward_of_not_writable (by decide))
    · exact (hreceive hconnected).1
  | finWait2 =>
    have hconnected : ¬ Connecting s.pcb.state := by rw [hst, Connecting]; decide
    dsimp only
    split_ifs
    · exact .inl h.remove
    · exact (hreceive hconnected).1
  | closing =>
    have hconnected : ¬ Connecting s.pcb.state := by rw [hst, Connecting]; decide
    dsimp only
    split_ifs
    · exact .inl h.remove
    · exact (hreceive hconnected).1
  | lastAck =>
    have hconnected : ¬ Connecting s.pcb.state := by rw [hst, Connecting]; decide
    dsimp only
    split_ifs
    · exact .inl h.remove
    · exact (hreceive hconnected).1

theorem Sound.tcpInput (h : Sound base s) (hlive : s.live = true) (hq : Acceptable s q) (ackNow : Bool) :
    Sound base (s.tcpInput q ackNow) := by
  have hprocessed : Processed base s q (s.tcpProcess q) := by
    rw [Sender.tcpProcess]
    split_ifs
    · exact .inl h
    · obtain ⟨hlast, hstate⟩ := parseopt_frame s.pcb q.mssOption
      have hparsed := h.parseopt hq.mss
      obtain hsound | ⟨hlifted, hlive', hundisturbed⟩ :=
        processState_processed hparsed hlive (q := q) (by dsimp only; rw [hlast]; exact hq.ackno)
          (hq.window.parseopt q.mssOption)
      · exact .inl hsound
      · refine .inr ⟨hlifted, hlive', ?_⟩
        rw [Sender.Undisturbed] at hundisturbed ⊢
        dsimp only at hundisturbed
        rwa [hstate] at hundisturbed
  rw [Sender.tcpInput]
  obtain hsound | ⟨hlifted, hlive', hundisturbed⟩ := hprocessed
  · split_ifs with hout
    · exact hsound.tcpOutput hout.1 ackNow
    · exact hsound
  · rw [if_pos ⟨hlive', hundisturbed⟩]
    exact hlifted.tcpOutput ackNow

end LogoCore.Lwip
