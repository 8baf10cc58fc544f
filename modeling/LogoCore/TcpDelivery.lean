import LogoCore.TcpConsistency

namespace LogoCore.Lwip

open Ethernet SequenceNumbers Receiver

structure Plausible (s : List UInt8) (base : UInt32) (r : Receiver) (x : Segment) : Prop where
  syn : x.seg.syn = true → r.pcb.state = .synSent → x.seg.seqno + 1 = base
  synAgain : x.seg.syn = true → r.pcb.state = .synRcvd → x.ack = false
  data : x.seg.syn = false → Open r.pcb.state → ∃ a, Arrival s base r.received.length a r.pcb x.seg

section Process

variable {s : List UInt8} {base : UInt32} {r : Receiver} {x : Segment}

theorem connected (h : Consistent s base r [] false) (hlive : r.live = true) (hstate : r.pcb.state = .synSent)
    {pcb : RecvPcb} (hnxt : pcb.rcvNxt = base) (hnew : pcb.state = .established) (hooseq : pcb.ooseq = r.pcb.ooseq)
    (keep : Bool) : Consistent s base { r with pcb := pcb, live := keep } [] false := by
  have hphase : r.pcb.ooseq = [] ∧ r.received = [] ∧ r.ends false = 0 := by
    cases h.phase hlive with
    | waiting _ ooseq received ends => exact ⟨ooseq, received, ends⟩
    | receiving state => simp [Open, hstate] at state
    | ended state => simp [Ended, hstate] at state
    | timeWait state => simp [hstate] at state
  obtain ⟨hqueue, hreceived, hends⟩ := hphase
  have htaken := h.taken
  rw [hreceived] at htaken
  have hnumber : pcb.rcvNxt = number base (0 : ℕ) := by
    rw [hnxt]
    exact (number_zero base).symm
  refine ⟨h.received, h.taken, h.inHand, h.once, h.told, h.held, h.fin, h.acks,
    fun _ => ⟨0, .inl (Nat.zero_le _), hnumber⟩, fun _ => .receiving (.inr (.inl hnew)) ⟨?_, ?_, ?_⟩ ?_ hends⟩
  · exact h.received.length_le
  · dsimp only
    rw [hreceived]
    exact hnumber
  · dsimp only
    rw [hooseq, hqueue]
    trivial
  · exact (List.prefix_nil.mp htaken).trans hreceived.symm

theorem passiveClose_consistent (h : Consistent s base r [] false) (hlive : r.live = true) (hopen : Open r.pcb.state)
    (hclean : r.refusedData = none ∨ x.seg.tcplen = 0) {a : ℕ}
    (harrival : Arrival s base r.received.length a r.pcb x.seg) (env : Env) :
    Consistent s base (passiveClose (r.receive x env)).r (r.receive x env).data (r.receive x env).gotFin := by
  obtain ⟨hmore, hlast⟩ := h.receive_open hlive hopen hclean harrival env
  rw [passiveClose]
  cases hf : (r.receive x env).gotFin with
  | false => exact (hmore hf).1
  | true => exact hlast hf _ (.inl rfl)

theorem processState_consistent (h : Consistent s base r [] false) (hlive : r.live = true)
    (hclean : r.refusedData = none ∨ x.seg.tcplen = 0) (hp : Plausible s base r x)
    (hsyn : r.pcb.state ≠ .synSent → r.pcb.state ≠ .synRcvd → x.seg.syn = false) (env : Env) :
    Consistent s base (r.processState x env).r (r.processState x env).data (r.processState x env).gotFin := by
  cases hst : r.pcb.state with
  | synSent =>
    rw [processState, hst]
    dsimp only
    by_cases hack : (x.ack && x.seg.syn && x.acksSyn) = true
    · rw [if_pos hack]
      have hseqno := hp.syn (by simp_all) hst
      exact connected h hlive hst (by exact hseqno) (by rfl) (by rfl) env.keep
    · rw [if_neg hack]
      exact h
  | synRcvd =>
    rw [processState, hst]
    dsimp only
    by_cases hack : (x.ack && x.acksSyn) = true
    · rw [if_pos hack]
      by_cases hkeep : env.keep = true
      · rw [if_pos hkeep]
        have hnosyn : x.seg.syn = false := by
          rw [← Bool.not_eq_true]
          intro hs
          have := hp.synAgain hs hst
          simp_all
        obtain ⟨a, harrival⟩ := hp.data hnosyn (.inl hst)
        have hopened := h.setState_open (.inl hst) (.inr (.inl rfl) : Open .established)
        exact passiveClose_consistent hopened hlive (.inr (.inl rfl)) hclean
          ⟨harrival.genuine, harrival.old, harrival.new, harrival.turn⟩ env
      · rw [if_neg hkeep]
        exact h.dead
    · rw [if_neg hack]
      exact h
  | established =>
    obtain ⟨a, harrival⟩ := hp.data (hsyn (by simp [hst]) (by simp [hst])) (.inr (.inl hst))
    rw [processState, hst]
    exact passiveClose_consistent h hlive (.inr (.inl hst)) hclean harrival env
  | closeWait =>
    obtain ⟨r', heq, hcons, -⟩ := h.receive_ended (.inl hst) x env
    rw [processState, hst]
    dsimp only
    rw [heq]
    exact hcons
  | finWait1 =>
    obtain ⟨a, harrival⟩ := hp.data (hsyn (by simp [hst]) (by simp [hst])) (.inr (.inr (.inl hst)))
    obtain ⟨hmore, hlast⟩ := h.receive_open hlive (.inr (.inr (.inl hst))) hclean harrival env
    rw [processState, hst]
    dsimp only
    cases hf : (r.receive x env).gotFin with
    | false =>
      obtain ⟨hcons, hopen⟩ := hmore hf
      rw [if_neg Bool.false_ne_true]
      split_ifs
      · exact hcons.setState_open hopen (.inr (.inr (.inr rfl)))
      · exact hcons
    | true =>
      have hclosing := hlast hf .closing (.inr (.inl rfl))
      rw [if_pos rfl]
      split_ifs
      · exact hclosing.purge (by simp [setState])
      · exact hclosing
  | finWait2 =>
    obtain ⟨a, harrival⟩ := hp.data (hsyn (by simp [hst]) (by simp [hst])) (.inr (.inr (.inr hst)))
    obtain ⟨hmore, hlast⟩ := h.receive_open hlive (.inr (.inr (.inr hst))) hclean harrival env
    rw [processState, hst]
    dsimp only
    cases hf : (r.receive x env).gotFin with
    | false => exact (hmore hf).1
    | true => exact (hlast hf .closing (.inr (.inl rfl))).purge (by simp [setState])
  | closing =>
    obtain ⟨r', heq, hcons, hstate⟩ := h.receive_ended (.inr (.inl hst)) x env
    rw [processState, hst]
    dsimp only
    rw [heq]
    split_ifs
    · exact hcons.purge (by rw [hstate, hst]; decide)
    · exact hcons
  | lastAck =>
    obtain ⟨r', heq, hcons, -⟩ := h.receive_ended (.inr (.inr hst)) x env
    rw [processState, hst]
    dsimp only
    rw [heq]
    split_ifs
    · exact hcons.dead
    · exact hcons
  | closed => rw [processState, hst]; exact h
  | listen => rw [processState, hst]; exact h
  | timeWait => rw [processState, hst]; exact h

theorem tcpProcess_consistent (h : Consistent s base r [] false) (hlive : r.live = true)
    (hclean : r.refusedData = none ∨ x.seg.tcplen = 0) (hp : x.rst = false → Plausible s base r x) (env : Env) :
    Consistent s base (r.tcpProcess x env).r (r.tcpProcess x env).data (r.tcpProcess x env).gotFin := by
  rw [tcpProcess]
  cases hrst : x.rst with
  | true =>
    rw [if_pos rfl]
    dsimp only
    split_ifs
    · exact h.dead
    · exact h
    · exact h.dead
    · exact h
  | false =>
    rw [if_neg Bool.false_ne_true]
    by_cases hsyn : x.seg.syn = true ∧ r.pcb.state ≠ .synSent ∧ r.pcb.state ≠ .synRcvd
    · rw [if_pos hsyn]
      exact h.quiet rfl rfl (.inl rfl)
    · rw [if_neg hsyn]
      have hplain := hp hrst
      have hnosyn (hsent : r.pcb.state ≠ .synSent) (hrcvd : r.pcb.state ≠ .synRcvd) : x.seg.syn = false := by
        rw [← Bool.not_eq_true]
        exact fun hs => hsyn ⟨hs, hsent, hrcvd⟩
      cases x.mssOption with
      | none => exact processState_consistent h hlive hclean hplain hnosyn env
      | some mss =>
        have hquiet : Consistent s base { r with pcb := tcpParseopt r.pcb (some mss) } [] false :=
          h.quiet rfl rfl (.inl rfl)
        refine processState_consistent hquiet hlive hclean ⟨hplain.syn, hplain.synAgain, fun hs hopen => ?_⟩ hnosyn env
        obtain ⟨a, harrival⟩ := hplain.data hs hopen
        exact ⟨a, harrival.genuine, harrival.old, harrival.new, harrival.turn⟩

theorem refusedData_frame (r : Receiver) (answer : Answer) (keep : Bool) :
    (r.tcpProcessRefusedData answer keep).received = r.received ∧
      (r.tcpProcessRefusedData answer keep).pcb.state = r.pcb.state ∧
      (r.pendingFin = false → (r.tcpProcessRefusedData answer keep).pcb = r.pcb) := by
  have hclosed (r : Receiver) : (r.eventClosed keep).received = r.received ∧
      (r.eventClosed keep).pcb.state = r.pcb.state := by
    rw [eventClosed]
    split_ifs
    · exact ⟨rfl, rfl⟩
    · exact ⟨rfl, rfl⟩
  rw [tcpProcessRefusedData]
  split
  · exact ⟨rfl, rfl, fun _ => rfl⟩
  · rename_i data fin hsome
    have hfin : r.pendingFin = fin := by
      rw [pendingFin, hsome]
      rfl
    cases answer with
    | ok =>
      dsimp only
      split_ifs with hf
      · exact ⟨(hclosed _).1, (hclosed _).2, fun hnot => by rw [hfin, hf] at hnot; cases hnot⟩
      · exact ⟨rfl, rfl, fun _ => rfl⟩
    | refuse => exact ⟨rfl, rfl, fun _ => rfl⟩
    | abort => exact ⟨rfl, rfl, fun _ => rfl⟩

theorem plausible_refusedData (h : Consistent s base r [] false) (hlive : r.live = true) (hp : Plausible s base r x)
    (answer : Answer) (keep : Bool) : Plausible s base (r.tcpProcessRefusedData answer keep) x := by
  obtain ⟨hreceived, hstate, hpcb⟩ := refusedData_frame r answer keep
  refine ⟨fun hs hst => hp.syn hs (hstate.symm.trans hst), fun hs hst => hp.synAgain hs (hstate.symm.trans hst),
    fun hs hopen => ?_⟩
  rw [hstate] at hopen
  have hnofin : r.pendingFin = false := by
    have hends : r.ends false = 0 := by
      cases h.phase hlive with
      | waiting _ _ _ ends => exact ends
      | receiving _ _ _ ends => exact ends
      | ended state => obtain hs | hs | hs := state <;> simp [Open, hs] at hopen
      | timeWait state => simp [Open, state] at hopen
    unfold Receiver.ends at hends
    cases hf : r.pendingFin with
    | false => rfl
    | true => simp [hf] at hends
  rw [hreceived, hpcb hnofin]
  exact hp.data hs hopen

theorem tcpInput_consistent (h : Consistent s base r [] false) (hlive : r.live = true)
    (hp : r.pcb.state ≠ .timeWait → x.rst = false → Plausible s base r x) (env : Env) :
    Consistent s base (r.tcpInput x env) [] false := by
  rw [tcpInput]
  by_cases htw : r.pcb.state = .timeWait
  · rw [if_pos htw, tcpTimewaitInput]
    split_ifs
    · exact h
    · exact h.quiet rfl rfl (.inl rfl)
    · exact h
  · rw [if_neg htw]
    have hagain := h.refusedAgain hlive env.retry env.retryClosed
    have hplain (hrst : x.rst = false) := plausible_refusedData h hlive (hp htw hrst) env.retry env.retryClosed
    generalize r.tcpProcessRefusedData env.retry env.retryClosed = r at hagain hplain
    dsimp only
    by_cases hstop : (!r.live || r.refusedData.isSome && decide (0 < x.seg.tcplen)) = true
    · rw [if_pos hstop]
      exact hagain
    · rw [if_neg hstop]
      rw [Bool.or_eq_true, not_or, Bool.not_eq_true', Bool.not_eq_false] at hstop
      have hclean : r.refusedData = none ∨ x.seg.tcplen = 0 := by
        cases hr : r.refusedData with
        | none => exact .inl rfl
        | some kept =>
          refine .inr ?_
          have hlen := hstop.2
          rw [hr, Option.isSome_some, Bool.true_and, decide_eq_true_iff, UInt16.lt_iff_toNat_lt] at hlen
          exact UInt16.toNat_inj.mp (Nat.eq_zero_of_not_pos hlen)
      have hcons := tcpProcess_consistent hagain hstop.1 hclean hplain env
      split_ifs with hdead hkeep
      · exact hcons.forget (by simpa using hdead)
      · exact hcons.dead
      · exact hcons.deliver (by simpa using hdead) env

theorem shut (h : Consistent s base r [] false) : Consistent s base { r with rxClosed := true } [] false := by
  refine ⟨h.received, h.taken, h.inHand, h.once, h.told, h.held, h.fin, h.acks, h.rcvNxt, fun hlive => ?_⟩
  cases h.phase hlive with
  | waiting state ooseq received ends => exact .waiting state ooseq received ends
  | receiving state queue all ends => exact .receiving state queue all ends
  | ended state all ends => exact .ended state all ends
  | timeWait state => exact .timeWait state

theorem tcpClose_consistent (h : Consistent s base r [] false) (fin : Bool) :
    Consistent s base (r.tcpClose fin) [] false := by
  have hshut := shut h
  rw [tcpClose]
  dsimp only
  by_cases habort : (r.pcb.state = .established ∨ r.pcb.state = .closeWait) ∧
      (r.refusedData.isSome = true ∨ r.pcb.rcvWnd ≠ UInt16.ofNat tcpWnd)
  · rw [if_pos habort]
    split_ifs with hest
    · exact hshut.purge (by simp [hest])
    · have hcw := habort.1.resolve_left hest
      exact hshut.free (by simp [hcw]) (by rfl) (by simp)
  · rw [if_neg habort]
    cases hst : r.pcb.state with
    | closed => exact hshut.dead
    | listen => exact hshut.dead
    | synSent => exact hshut.dead
    | synRcvd =>
      cases fin with
      | true => exact hshut.setState_open (.inl hst) (.inr (.inr (.inl rfl)))
      | false => exact hshut
    | established =>
      cases fin with
      | true => exact hshut.setState_open (.inr (.inl hst)) (.inr (.inr (.inl rfl)))
      | false => exact hshut
    | closeWait =>
      cases fin with
      | true => exact hshut.setState_ended (.inl hst) (.inr (.inr rfl))
      | false => exact hshut
    | finWait1 => exact hshut
    | finWait2 => exact hshut
    | closing => exact hshut
    | lastAck => exact hshut
    | timeWait => exact hshut

theorem output_consistent (h : Consistent s base r [] false) : Consistent s base r.output [] false := by
  rw [output]
  dsimp only
  split_ifs with hst
  · exact h.quiet rfl rfl (.inl rfl)
  · have hquiet : Consistent s base
        { r with pcb := { (announce r.pcb).2 with ackDelay := false, ackNow := false } } [] false :=
      h.quiet rfl rfl (.inl rfl)
    refine ⟨h.received, h.taken, h.inHand, h.once, h.told, h.held, h.fin, ?_, hquiet.rcvNxt, fun hlive => ?_⟩
    · intro ack hack
      obtain hold | hnew := List.mem_append.mp hack
      · exact h.acks ack hold
      · obtain ⟨k, hk, hnxt⟩ := h.rcvNxt hst
        refine ⟨k, hk, ?_⟩
        rw [List.mem_singleton.mp hnew]
        exact hnxt
    · cases hquiet.phase hlive with
      | waiting state ooseq received ends => exact .waiting state ooseq received ends
      | receiving state queue all ends => exact .receiving state queue all ends
      | ended state all ends => exact .ended state all ends
      | timeWait state => exact .timeWait state

theorem tcpRecved_consistent (h : Consistent s base r [] false) (len : UInt16) :
    Consistent s base (r.tcpRecved len) [] false := by
  rw [tcpRecved]
  dsimp only
  generalize (if UInt16.ofNat tcpWnd < r.pcb.rcvWnd + len then UInt16.ofNat tcpWnd else r.pcb.rcvWnd + len) = wnd
  obtain ⟨ann, hann⟩ := tcpUpdateRcvAnnWnd_eq { r.pcb with rcvWnd := wnd }
  rw [hann]
  split_ifs
  · exact h.quiet rfl rfl (.inl rfl)
  · exact h.quiet rfl rfl (.inl rfl)

end Process

/-- The connection with a peer that sends the stream `s` from the sequence number `base` on. Segments may arrive in any
order, several times or not at all. -/
def recvMachine (s : List UInt8) (base : UInt32) : Machine Receiver RecvEvent where
  enabled r e :=
    match e with
    | .input x _ => r.live = true → r.pcb.state ≠ .timeWait → x.rst = false → Plausible s base r x
    | _ => True
  step := recvStep

theorem recvStep_consistent {s : List UInt8} {base : UInt32} (r : Receiver) (e : RecvEvent)
    (he : (recvMachine s base).enabled r e) (h : Consistent s base r [] false) :
    Consistent s base (recvStep r e) [] false := by
  unfold recvStep
  cases hlive : r.live with
  | false => exact h
  | true =>
    cases e with
    | input x env => exact tcpInput_consistent h hlive (he hlive) env
    | recved len => exact tcpRecved_consistent h len
    | close fin => exact tcpClose_consistent h fin
    | dropOoseq => exact h.quiet rfl rfl (.inr rfl)
    | fasttmr env =>
      simp only [Bool.not_true, Bool.false_eq_true, if_false, tcpFasttmr]
      split_ifs
      · exact h
      · exact h.refusedAgain hlive _ _
    | output => exact output_consistent h
    | remove => exact h.dead

theorem consistent_listen (s : List UInt8) (seqno : UInt32) (mssOption : Option UInt16) :
    Consistent s (seqno + 1) (tcpListenInput seqno mssOption) [] false := by
  have hnxt : (tcpListenInput seqno mssOption).pcb.rcvNxt = number (seqno + 1) (0 : ℕ) := by
    refine Eq.trans ?_ (number_zero _).symm
    cases mssOption <;> rfl
  have hrest : (tcpListenInput seqno mssOption).pcb.state = .synRcvd ∧
      (tcpListenInput seqno mssOption).pcb.ooseq = [] := by
    cases mssOption <;> exact ⟨rfl, rfl⟩
  refine ⟨List.nil_prefix, List.prefix_rfl, by simp, Nat.zero_le 1, by simp [tcpListenInput],
    by simp [pendingFin, tcpListenInput], by simp, by simp [tcpListenInput], fun _ => ⟨0, .inl le_rfl, hnxt⟩,
    fun _ => ?_⟩
  refine .receiving (.inl hrest.1) ⟨Nat.zero_le _, hnxt, ?_⟩ rfl rfl
  rw [hrest.2]
  trivial

theorem consistent_connect (s : List UInt8) (base : UInt32) : Consistent s base tcpConnect [] false :=
  ⟨List.nil_prefix, List.prefix_rfl, by simp, by decide, by simp [tcpConnect], by simp [pendingFin, tcpConnect],
    by simp, by simp [tcpConnect],
    fun h => absurd rfl h, fun _ => .waiting rfl rfl rfl rfl⟩

/-- Whatever arrives in whatever order, and whenever the application refuses data, closes or is polled, the application
gets a prefix of the peer's stream, each byte once; the end of the stream is told once at most and only after all of it,
and nothing is acknowledged that was not received. -/
theorem application_gets_stream (s : List UInt8) (base : UInt32) (r : Receiver)
    (hstart : r = tcpConnect ∨ ∃ mssOption, r = tcpListenInput (base - 1) mssOption) (es : List RecvEvent)
    (hes : (recvMachine s base).Legal r es) :
    let r := (recvMachine s base).run r es
    r.taken <+: s ∧ r.closedCalls ≤ 1 ∧ (r.closedCalls = 1 → r.taken = s) ∧
      ∀ ack ∈ r.acks, ∃ k, (k ≤ r.received.length ∨ k = s.length + 1 ∧ r.received = s) ∧ ack.ackno = number base k := by
  have hinit : Consistent s base r [] false := by
    obtain rfl | ⟨mssOption, rfl⟩ := hstart
    · exact consistent_connect s base
    · have h := consistent_listen s (base - 1) mssOption
      rwa [UInt32.sub_add_cancel] at h
  have h : Consistent s base ((recvMachine s base).run r es) [] false :=
    Machine.invariant recvStep_consistent hinit hes
  have honce : ((recvMachine s base).run r es).closedCalls ≤ 1 := by
    have honce := h.once
    unfold Receiver.ends at honce
    omega
  refine ⟨?_, honce, fun hc => h.told (by omega), fun ack hack => ?_⟩
  · have htaken := h.taken
    rw [List.append_nil] at htaken
    exact (List.prefix_append _ _).trans (htaken.trans h.received)
  · obtain ⟨k, hk, hackno⟩ := h.acks ack hack
    refine ⟨k, hk.imp_right fun hlast => ⟨?_, hlast.2⟩, hackno⟩
    rw [hlast.1, hlast.2]

def reordered : List RecvEvent :=
  let env : Env := ⟨true, true, true, .ok, true, .ok, true⟩
  [.input ⟨⟨1002, true, false, 2, [3, 4]⟩, false, true, true, false, none⟩ env,
    .input ⟨⟨1000, false, false, 2, [1, 2]⟩, false, true, true, false, none⟩ env]

theorem reordered_legal : (recvMachine [1, 2, 3, 4] 1000).Legal (tcpListenInput 999 none) reordered := by
  have hgenuine : Genuine [1, 2, 3, 4] 1000 2 ⟨1002, true, false, 2, [3, 4]⟩ :=
    ⟨by decide, rfl, by decide, by decide, fun _ => rfl, rfl⟩
  have hgenuine' : Genuine [1, 2, 3, 4] 1000 0 ⟨1000, false, false, 2, [1, 2]⟩ :=
    ⟨by decide, rfl, by decide, by decide, fun h => absurd h (by decide), rfl⟩
  have hdata {p : Prop} (h : false = true) : p := absurd h Bool.false_ne_true
  exact ⟨fun _ _ _ => ⟨hdata, hdata, fun _ _ => ⟨2, hgenuine, by decide, by decide, fun _ => by decide⟩⟩,
    fun _ _ _ => ⟨hdata, hdata, fun _ _ => ⟨0, hgenuine', by decide, by decide,
      fun hnew => absurd hnew (Nat.not_lt_zero _)⟩⟩, trivial⟩

theorem reordered_told :
    ((recvMachine [1, 2, 3, 4] 1000).run (tcpListenInput 999 none) reordered).closedCalls = 1 ∧
      ((recvMachine [1, 2, 3, 4] 1000).run (tcpListenInput 999 none) reordered).taken = [1, 2, 3, 4] :=
  ⟨by decide, (application_gets_stream [1, 2, 3, 4] 1000 (tcpListenInput 999 none) (.inr ⟨none, rfl⟩) reordered
    reordered_legal).2.2.1 (by decide)⟩

end LogoCore.Lwip
