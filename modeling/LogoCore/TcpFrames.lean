import LogoCore.TcpInput
import LogoCore.TcpSender

namespace LogoCore.Lwip

open Ethernet SequenceNumbers

section Sending

variable {pcb : SendPcb}

def SendPcb.marks (pcb : SendPcb) : Bool × UInt32 := (pcb.fin, pcb.lastack)

theorem outputLoop_marks (wnd : UInt32) (pcb : SendPcb) (q : List OutSeg) :
    (outputLoop wnd pcb q).1.marks = pcb.marks := by
  induction q generalizing pcb with
  | nil => rfl
  | cons s rest ih =>
    rw [outputLoop]
    split_ifs
    · exact ih (outputSegment pcb s)
    · rfl

theorem tcpOutput_marks (pcb : SendPcb) (ackNow : Bool) : (tcpOutput pcb ackNow).1.marks = pcb.marks := by
  rw [tcpOutput]
  split_ifs
  · rfl
  · exact outputLoop_marks _ pcb pcb.unsent

theorem retransmit_marks (pcb : SendPcb) (ackNow : Bool) : (retransmit pcb ackNow).1.marks = pcb.marks := by
  rw [retransmit]
  split_ifs
  · rfl
  · exact tcpOutput_marks _ ackNow

theorem tcpWriteChecks_marks (pcb : SendPcb) (len : ℕ) : (tcpWriteChecks pcb len).2.marks = pcb.marks := by
  rw [tcpWriteChecks]
  split_ifs <;> rfl

theorem tcpWrite_marks (pcb : SendPcb) (data : List UInt8) (more : Bool) (mem : ℕ) :
    (tcpWrite pcb data more mem).2.marks = pcb.marks := by
  have hchecks := tcpWriteChecks_marks pcb data.length
  rw [tcpWrite]
  generalize tcpWriteChecks pcb data.length = r at hchecks
  obtain ⟨err, pcb'⟩ := r
  cases err with
  | ok => cases segmentation pcb data more mem <;> rfl
  | _ => exact hchecks

theorem tcpSendFin_marks (pcb : SendPcb) (mem : ℕ) : (tcpSendFin pcb mem).2.lastack = pcb.lastack ∧
    (pcb.fin = true → (tcpSendFin pcb mem).2.fin = true) := by
  have henqueue : (tcpEnqueueFlags pcb false true mem).2.lastack = pcb.lastack ∧
      (pcb.fin = true → (tcpEnqueueFlags pcb false true mem).2.fin = true) := by
    rw [tcpEnqueueFlags]
    split_ifs
    · exact ⟨rfl, id⟩
    · exact ⟨rfl, id⟩
    · exact ⟨rfl, id⟩
    · exact ⟨rfl, fun _ => Bool.or_true _⟩
  rw [tcpSendFin]
  cases pcb.unsent.getLast? with
  | none => exact henqueue
  | some last =>
    dsimp only
    split_ifs
    · exact ⟨rfl, fun _ => rfl⟩
    · exact henqueue

theorem tcpRexmit_marks (pcb : SendPcb) : (tcpRexmit pcb).marks = pcb.marks := by
  rw [tcpRexmit]
  cases pcb.unacked <;> rfl

theorem dupAck_marks (pcb : SendPcb) (rightWndEdge ackno : UInt32) (tcplen : UInt16) :
    (dupAck pcb rightWndEdge ackno tcplen).marks = pcb.marks := by
  have hfast : ∀ pcb : SendPcb, (tcpRexmitFast pcb).marks = pcb.marks := by
    intro pcb
    rw [tcpRexmitFast]
    split_ifs
    · exact tcpRexmit_marks pcb
    · rfl
  rw [dupAck]
  by_cases hdup : tcplen = 0 ∧ pcb.sndWl2 + pcb.sndWnd.toUInt32 = rightWndEdge ∧ 0 ≤ pcb.rtime ∧ pcb.lastack = ackno
  · rw [if_pos hdup]
    generalize (if pcb.dupacks < pcb.dupacks + 1 then pcb.dupacks + 1 else pcb.dupacks) = dupacks
    dsimp only
    by_cases hmany : 3 < dupacks
    · rw [if_pos hmany]
      rfl
    · rw [if_neg hmany]
      by_cases hthree : dupacks = 3
      · rw [if_pos hthree]
        exact hfast _
      · rw [if_neg hthree]
        rfl
  · rw [if_neg hdup]
    rfl

theorem freeUnacked_marks (ackno : UInt32) (pcb : SendPcb) (q : List OutSeg) :
    (freeUnacked ackno pcb q).marks = pcb.marks := by
  induction q generalizing pcb with
  | nil => rfl
  | cons s rest ih =>
    rw [freeUnacked]
    split_ifs
    · exact ih (freeAcked pcb s)
    · rfl

theorem freeUnsent_marks (ackno : UInt32) (pcb : SendPcb) (q : List OutSeg) :
    (freeUnsent ackno pcb q).marks = pcb.marks := by
  induction q generalizing pcb with
  | nil => rfl
  | cons s rest ih =>
    rw [freeUnsent]
    split_ifs
    · exact ih _
    · exact ih _
    · rfl

theorem newAck_marks (pcb : SendPcb) (ackno : UInt32) : (newAck pcb ackno).marks = (pcb.fin, ackno) := by
  have hgrow : ∀ pcb : SendPcb, (growCwnd pcb).marks = pcb.marks := by
    intro pcb
    dsimp only [growCwnd]
    split_ifs <;> rfl
  rw [newAck]
  refine (freeUnacked_marks ackno _ _).trans ((hgrow _).trans ?_)
  split_ifs <;> rfl

theorem receiveAck_marks (pcb : SendPcb) (seqno ackno : UInt32) (wnd tcplen : UInt16) :
    (receiveAck pcb seqno ackno wnd tcplen).marks = pcb.marks ∨
      (receiveAck pcb seqno ackno wnd tcplen).marks = (pcb.fin, ackno) := by
  have hwnd : (updateWindow pcb seqno ackno wnd).marks = pcb.marks := by
    rw [updateWindow]
    split_ifs <;> rfl
  rw [receiveAck]
  generalize updateWindow pcb seqno ackno wnd = pcb₁ at hwnd
  have hfin : pcb₁.fin = pcb.fin := congrArg Prod.fst hwnd
  rw [freeUnsent_marks]
  split_ifs
  · exact .inl ((dupAck_marks _ _ _ _).trans hwnd)
  · rw [newAck_marks, hfin]
    exact .inr rfl
  · exact .inl hwnd

/-- The FIN flag stays and `lastack` becomes the number of the segment, if it changes. -/
def Marked (q : AckSegment) (pcb pcb' : SendPcb) : Prop :=
  pcb'.marks = pcb.marks ∨ q.ack = true ∧ pcb'.marks = (pcb.fin, q.ackno)

theorem receive_marked (pcb : SendPcb) (q : AckSegment) : Marked q pcb (pcb.receive q) := by
  rw [SendPcb.receive]
  split_ifs with hq
  · exact (receiveAck_marks pcb q.seqno q.ackno q.wnd q.tcplen).imp_right fun h => ⟨hq, h⟩
  · exact .inl rfl

theorem synAcked_marked {q : AckSegment} (hq : q.ack = true) (pcb : SendPcb) : Marked q pcb (pcb.synAcked q) := by
  rw [SendPcb.synAcked]
  cases pcb.unacked with
  | nil => exact .inl rfl
  | cons rseg rest =>
    by_cases hack : q.ackno = rseg.seg.seqno + 1
    · simp only [if_pos hack]
      exact .inr ⟨hq, rfl⟩
    · simp only [if_neg hack]
      exact .inl rfl

theorem processState_marked (s : Sender) (q : AckSegment) : Marked q s.pcb (s.processState q).pcb := by
  have hreceive := receive_marked s.pcb q
  rw [Sender.processState]
  cases s.pcb.state <;> dsimp only
  case synSent =>
    split_ifs with hq
    · exact synAcked_marked (by simp_all) s.pcb
    · exact .inl rfl
  case synRcvd =>
    split_ifs
    · exact receive_marked { s.pcb with state := .established } q
    · exact .inl rfl
    · exact .inl (tcpRexmit_marks s.pcb)
    · exact .inl rfl
  all_goals
    try split_ifs
  all_goals
    first
      | exact .inl rfl
      | exact hreceive

theorem tcpInput_marked (s : Sender) (q : AckSegment) (ackNow : Bool) : Marked q s.pcb (s.tcpInput q ackNow).pcb := by
  have hprocess : Marked q s.pcb (s.tcpProcess q).pcb := by
    rw [Sender.tcpProcess]
    split_ifs
    · exact .inl rfl
    · have hparsed : (s.pcb.parseopt q.mssOption).marks = s.pcb.marks := by cases q.mssOption <;> rfl
      have hfin : (s.pcb.parseopt q.mssOption).fin = s.pcb.fin := congrArg Prod.fst hparsed
      have h := processState_marked { s with pcb := s.pcb.parseopt q.mssOption } q
      rw [Marked] at h ⊢
      dsimp only at h
      rwa [hparsed, hfin] at h
  rw [Sender.tcpInput]
  split_ifs
  · rw [Marked]
    rw [show (((s.tcpProcess q).tcpOutput ackNow).pcb.marks) = (s.tcpProcess q).pcb.marks from tcpOutput_marks _ ackNow]
    exact hprocess
  · exact hprocess

theorem tcpClose_marks (s : Sender) (rst : Bool) (mem : ℕ) (ackNow : Bool) :
    (s.tcpClose rst mem ackNow).pcb.lastack = s.pcb.lastack ∧
      (s.pcb.fin = true → (s.tcpClose rst mem ackNow).pcb.fin = true) := by
  have hfinish : ∀ state, (s.finish state mem ackNow).pcb.lastack = s.pcb.lastack ∧
      (s.pcb.fin = true → (s.finish state mem ackNow).pcb.fin = true) := by
    intro state
    have hsend := tcpSendFin_marks s.pcb mem
    rw [Sender.finish]
    split_ifs
    · have hout := tcpOutput_marks { (tcpSendFin s.pcb mem).2 with state := state } ackNow
      exact ⟨(congrArg Prod.snd hout).trans hsend.1, fun hfin => (congrArg Prod.fst hout).trans (hsend.2 hfin)⟩
    · exact hsend
  rw [Sender.tcpClose]
  split_ifs
  · exact ⟨rfl, id⟩
  · cases s.pcb.state <;> first | exact ⟨rfl, id⟩ | exact hfinish _

theorem sendStep_marks (s : Sender) (e : SendEvent) :
    (s.pcb.fin = true → (sendStep s e).pcb.fin = true) ∧ ((sendStep s e).pcb.lastack = s.pcb.lastack ∨
      s.live = true ∧ ∃ q ackNow, e = .input q ackNow ∧ q.ack = true ∧ (sendStep s e).pcb.lastack = q.ackno) := by
  have hsame : ∀ {pcb' : SendPcb}, pcb'.marks = s.pcb.marks →
      (s.pcb.fin = true → pcb'.fin = true) ∧ pcb'.lastack = s.pcb.lastack := fun {pcb'} h =>
    ⟨fun hfin => (congrArg Prod.fst h).trans hfin, congrArg Prod.snd h⟩
  unfold sendStep
  cases hlive : s.live with
  | false => exact ⟨id, .inl rfl⟩
  | true =>
    cases e with
    | write data more mem => exact (hsame (tcpWrite_marks s.pcb data more mem)).imp_right .inl
    | close rst mem ackNow =>
      obtain ⟨hlast, hfin⟩ := tcpClose_marks s rst mem ackNow
      exact ⟨hfin, .inl hlast⟩
    | output ackNow => exact (hsame (tcpOutput_marks s.pcb ackNow)).imp_right .inl
    | input q ackNow =>
      obtain hmarks | ⟨hq, hmarks⟩ := tcpInput_marked s q ackNow
      · exact (hsame hmarks).imp_right .inl
      · exact ⟨fun hfin => (congrArg Prod.fst hmarks).trans hfin,
          .inr ⟨rfl, q, ackNow, rfl, hq, congrArg Prod.snd hmarks⟩⟩
    | slowtmr ackNow => exact (hsame (retransmit_marks s.pcb ackNow)).imp_right .inl
    | probe mem => exact ⟨id, .inl rfl⟩
    | remove => exact ⟨id, .inl rfl⟩

end Sending

section Receiving

variable {r : Receiver}

theorem deliver_acks (r : Receiver) (data : List UInt8) (gotFin : Bool) (env : Env) :
    (r.deliver data gotFin env).acks = r.acks := by
  have hoffer : (r.offer data env).acks = r.acks := by
    rw [Receiver.offer]
    split_ifs
    · rfl
    · rfl
    · cases env.recv <;> rfl
  have hend : ∀ r : Receiver, (r.offerEnd env).acks = r.acks := by
    intro r
    rw [Receiver.offerEnd]
    cases r.refusedData <;> rfl
  rw [Receiver.deliver]
  split_ifs
  · rw [hend, hoffer]
  · exact hoffer

theorem tcpProcessRefusedData_acks (r : Receiver) (answer : Answer) (keep : Bool) :
    (r.tcpProcessRefusedData answer keep).acks = r.acks := by
  rw [Receiver.tcpProcessRefusedData]
  cases r.refusedData with
  | none => rfl
  | some p =>
    obtain ⟨data, fin⟩ := p
    cases answer with
    | ok => cases fin <;> rfl
    | refuse => rfl
    | abort => rfl

theorem passiveClose_acks (p : Handed) : (Receiver.passiveClose p).r.acks = p.r.acks := by
  rw [Receiver.passiveClose]
  dsimp only
  split_ifs <;> rfl

theorem processState_acks (r : Receiver) (x : Segment) (env : Env) : r.acks <+: (r.processState x env).r.acks := by
  have hreceive : ∀ r : Receiver, r.acks <+: (r.receive x env).r.acks := fun r => List.prefix_append _ _
  rw [Receiver.processState]
  cases r.pcb.state <;> dsimp only
  case synSent => split_ifs <;> exact List.prefix_rfl
  case synRcvd =>
    split_ifs
    · rw [passiveClose_acks]
      exact hreceive (r.setState .established)
    · exact List.prefix_rfl
    · exact List.prefix_rfl
  case established =>
    rw [passiveClose_acks]
    exact hreceive r
  case closeWait =>
    rw [passiveClose_acks]
    exact hreceive r
  all_goals
    try split_ifs
  all_goals
    first
      | exact List.prefix_rfl
      | exact hreceive r

theorem tcpInput_acks (r : Receiver) (x : Segment) (env : Env) : r.acks <+: (r.tcpInput x env).acks := by
  have hprocess : ∀ r : Receiver, r.acks <+: (r.tcpProcess x env).r.acks := by
    intro r
    rw [Receiver.tcpProcess]
    by_cases hrst : x.rst = true
    · rw [if_pos hrst]
      dsimp only
      split_ifs <;> exact List.prefix_rfl
    rw [if_neg hrst]
    by_cases hsyn : x.seg.syn ∧ r.pcb.state ≠ .synSent ∧ r.pcb.state ≠ .synRcvd
    · rw [if_pos hsyn]
      exact List.prefix_rfl
    · rw [if_neg hsyn]
      exact processState_acks { r with pcb := Receiver.tcpParseopt r.pcb x.mssOption } x env
  rw [Receiver.tcpInput]
  by_cases htime : r.pcb.state = .timeWait
  · rw [if_pos htime, Receiver.tcpTimewaitInput]
    split_ifs <;> exact List.prefix_rfl
  rw [if_neg htime]
  have hretry := tcpProcessRefusedData_acks r env.retry env.retryClosed
  generalize r.tcpProcessRefusedData env.retry env.retryClosed = r' at hretry
  rw [← hretry]
  dsimp only
  by_cases hdrop : (!r'.live || r'.refusedData.isSome && 0 < x.seg.tcplen) = true
  · exact (if_pos hdrop).symm ▸ List.prefix_rfl
  rw [if_neg hdrop]
  by_cases hdead : (!(r'.tcpProcess x env).r.live) = true
  · rw [if_pos hdead]
    exact hprocess r'
  rw [if_neg hdead]
  by_cases hkeep : (!env.keep) = true
  · rw [if_pos hkeep]
    exact hprocess r'
  · rw [if_neg hkeep, deliver_acks]
    exact hprocess r'

theorem tcpClose_acks (r : Receiver) (fin : Bool) : (r.tcpClose fin).acks = r.acks := by
  rw [Receiver.tcpClose]
  dsimp only
  by_cases hrst : (r.pcb.state = .established ∨ r.pcb.state = .closeWait) ∧
      (r.refusedData.isSome ∨ r.pcb.rcvWnd ≠ UInt16.ofNat tcpWnd)
  · rw [if_pos hrst]
    split_ifs <;> rfl
  · rw [if_neg hrst]
    cases r.pcb.state <;> cases fin <;> rfl

theorem recvStep_acks (r : Receiver) (e : RecvEvent) : r.acks <+: (recvStep r e).acks := by
  unfold recvStep
  cases r.live with
  | false => exact List.prefix_rfl
  | true =>
    cases e with
    | input x env => exact tcpInput_acks r x env
    | recved len => exact List.prefix_rfl
    | close fin => exact (tcpClose_acks r fin) ▸ List.prefix_rfl
    | dropOoseq => exact List.prefix_rfl
    | fasttmr env =>
      change r.acks <+: (r.tcpFasttmr env).acks
      rw [Receiver.tcpFasttmr]
      split_ifs
      · exact List.prefix_rfl
      · exact (tcpProcessRefusedData_acks r env.retry env.retryClosed) ▸ List.prefix_rfl
    | output =>
      change r.acks <+: r.output.acks
      rw [Receiver.output]
      split_ifs
      · exact List.prefix_rfl
      · exact List.prefix_append _ _
    | remove => exact List.prefix_rfl

end Receiving

end LogoCore.Lwip
