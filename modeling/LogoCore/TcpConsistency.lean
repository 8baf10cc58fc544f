import LogoCore.TcpInput
import LogoCore.TcpReassembly

namespace LogoCore.Lwip

open Ethernet SequenceNumbers

namespace Receiver

def pending (r : Receiver) : List UInt8 := (r.refusedData.map Prod.fst).getD []

def pendingFin (r : Receiver) : Bool := (r.refusedData.map Prod.snd).getD false

def ends (r : Receiver) (gotFin : Bool) : ℕ := r.closedCalls + r.pendingFin.toNat + gotFin.toNat

def Covers (s : List UInt8) (r : Receiver) (k : ℕ) : Prop :=
  k ≤ r.received.length ∨ k = r.received.length + 1 ∧ r.received = s

end Receiver

open Receiver

def Open (state : TcpState) : Prop :=
  state = .synRcvd ∨ state = .established ∨ state = .finWait1 ∨ state = .finWait2

def Ended (state : TcpState) : Prop := state = .closeWait ∨ state = .closing ∨ state = .lastAck

/-- Where a live connection stands; `data` and `gotFin` are in hand inside `tcp_input`. -/
inductive Phase (s : List UInt8) (base : UInt32) (r : Receiver) (data : List UInt8) (gotFin : Bool) : Prop where
  | waiting (state : r.pcb.state = .synSent) (ooseq : r.pcb.ooseq = []) (received : r.received = [])
      (ends : r.ends gotFin = 0)
  | receiving (state : Open r.pcb.state) (queue : Receiving s base r.received.length r.pcb)
      (all : r.taken ++ r.pending ++ data = r.received) (ends : r.ends gotFin = 0)
  | ended (state : Ended r.pcb.state) (all : r.received = s) (ends : r.ends gotFin = 1)
  | timeWait (state : r.pcb.state = .timeWait)

/-- What holds of the connection between two steps, and inside one with `data` and `gotFin` in hand. -/
structure Consistent (s : List UInt8) (base : UInt32) (r : Receiver) (data : List UInt8) (gotFin : Bool) : Prop where
  received : r.received <+: s
  taken : r.taken ++ r.pending ++ data <+: r.received
  inHand : data ≠ [] ∨ gotFin = true → r.refusedData = none
  once : r.ends gotFin ≤ 1
  told : r.closedCalls ≠ 0 → r.taken = s
  held : r.pendingFin = true → r.taken ++ r.pending = s
  fin : gotFin = true → r.taken ++ data = s
  acks : ∀ ack ∈ r.acks, ∃ k, r.Covers s k ∧ ack.ackno = number base k
  rcvNxt : r.pcb.state ≠ .synSent → ∃ k, r.Covers s k ∧ r.pcb.rcvNxt = number base k
  phase : r.live = true → Phase s base r data gotFin

namespace Consistent

variable {s : List UInt8} {base : UInt32} {r : Receiver} {data : List UInt8} {gotFin : Bool}

theorem quiet (h : Consistent s base r data gotFin) {pcb : RecvPcb} (hstate : pcb.state = r.pcb.state)
    (hnxt : pcb.rcvNxt = r.pcb.rcvNxt) (hooseq : pcb.ooseq = r.pcb.ooseq ∨ pcb.ooseq = []) :
    Consistent s base { r with pcb := pcb } data gotFin := by
  refine ⟨h.received, h.taken, h.inHand, h.once, h.told, h.held, h.fin, h.acks, fun hs => ?_, fun hlive => ?_⟩
  · dsimp only at hs ⊢
    rw [hnxt]
    exact h.rcvNxt (hstate ▸ hs)
  · cases h.phase hlive with
    | waiting state ooseq received ends =>
      refine .waiting (hstate.trans state) ?_ received ends
      obtain hq | hq := hooseq
      · exact hq.trans ooseq
      · exact hq
    | receiving state queue all ends =>
      refine .receiving (by dsimp only; rwa [hstate]) ⟨queue.bound, hnxt.trans queue.rcvNxt, ?_⟩ all ends
      dsimp only
      obtain hq | hq := hooseq
      · rw [hq]
        exact queue.queue
      · rw [hq]
        trivial
    | ended state all ends => exact .ended (by dsimp only; rwa [hstate]) all ends
    | timeWait state => exact .timeWait (hstate.trans state)

theorem dead (h : Consistent s base r data gotFin) : Consistent s base { r with live := false } [] false := by
  refine ⟨h.received, ?_, ?_, ?_, h.told, h.held, ?_, h.acks, h.rcvNxt, ?_⟩
  · rw [List.append_nil]
    exact (List.prefix_append _ _).trans h.taken
  · simp
  · have honce := h.once
    unfold Receiver.ends at honce ⊢
    exact le_trans (Nat.add_le_add_left (Nat.zero_le _) _) honce
  · exact fun hf => absurd hf Bool.false_ne_true
  · exact fun hlive => absurd hlive Bool.false_ne_true

theorem forget (h : Consistent s base r data gotFin) (hdead : r.live = false) : Consistent s base r [] false := by
  have heq : ({ r with live := false } : Receiver) = r := by rw [← hdead]
  exact heq ▸ h.dead

theorem pending_of_none (h : r.refusedData = none) : r.pending = [] ∧ r.pendingFin = false := by
  simp [pending, pendingFin, h]

theorem take (h : Consistent s base r data gotFin) (hnone : r.refusedData = none) :
    Consistent s base { r with taken := r.taken ++ data } [] gotFin := by
  obtain ⟨hpending, hfin⟩ := pending_of_none hnone
  have hpending' : ({ r with taken := r.taken ++ data } : Receiver).pending = [] := hpending
  have hall : r.taken ++ r.pending ++ data = r.taken ++ data := by rw [hpending, List.append_nil]
  have htaken := h.taken
  rw [hall] at htaken
  refine ⟨h.received, ?_, fun _ => hnone, h.once, fun hc => ?_, fun hf => ?_, fun hf => ?_, h.acks, h.rcvNxt,
    fun hlive => ?_⟩
  · rw [hpending', List.append_nil, List.append_nil]
    exact htaken
  · have hs := h.told hc
    have hle := (htaken.trans h.received).length_le
    rw [List.length_append, hs] at hle
    have hnil : data = [] := List.eq_nil_of_length_eq_zero (by omega)
    dsimp only
    rw [hnil, List.append_nil, hs]
  · exact absurd (hfin.symm.trans hf) Bool.false_ne_true
  · rw [List.append_nil]
    exact h.fin hf
  · cases h.phase hlive with
    | waiting state ooseq received ends => exact .waiting state ooseq received ends
    | receiving state queue all ends =>
      refine .receiving state queue ?_ ends
      rw [hpending', List.append_nil, List.append_nil, ← hall]
      exact all
    | ended state all ends => exact .ended state all ends
    | timeWait state => exact .timeWait state

theorem hold (h : Consistent s base r data gotFin) (hnone : r.refusedData = none) :
    Consistent s base { r with refusedData := some (data, gotFin) } [] false := by
  obtain ⟨hpending, hfin⟩ := pending_of_none hnone
  have hall : r.taken ++ r.pending ++ data = r.taken ++ data := by rw [hpending, List.append_nil]
  have htaken := h.taken
  rw [hall] at htaken
  have hends : ({ r with refusedData := some (data, gotFin) } : Receiver).ends false = r.ends gotFin := by
    unfold Receiver.ends
    rw [hfin]
    exact (Nat.add_right_comm _ _ _)
  refine ⟨h.received, ?_, by simp, hends.symm ▸ h.once, h.told, h.fin, by simp, h.acks, h.rcvNxt, fun hlive => ?_⟩
  · rw [List.append_nil]
    exact htaken
  · cases h.phase hlive with
    | waiting state ooseq received ends => exact .waiting state ooseq received (hends.trans ends)
    | receiving state queue all ends =>
      refine .receiving state queue ?_ (hends.trans ends)
      rw [List.append_nil]
      exact hall.symm.trans all
    | ended state all ends => exact .ended state all (hends.trans ends)
    | timeWait state => exact .timeWait state

theorem unhold (h : Consistent s base r [] false) {fin : Bool} (hsome : r.refusedData = some (data, fin)) :
    Consistent s base { r with refusedData := none } data fin := by
  have hpending : r.pending = data := by rw [pending, hsome]; rfl
  have hfin : r.pendingFin = fin := by rw [pendingFin, hsome]; rfl
  have htaken := h.taken
  rw [hpending, List.append_nil] at htaken
  have hends : ({ r with refusedData := none } : Receiver).ends fin = r.ends false := by
    unfold Receiver.ends
    rw [hfin]
    exact (Nat.add_right_comm _ _ _)
  have hnil : ({ r with refusedData := none } : Receiver).pending = [] := rfl
  refine ⟨h.received, ?_, fun _ => rfl, hends.symm ▸ h.once, h.told, ?_, ?_, h.acks, h.rcvNxt, fun hlive => ?_⟩
  · rw [hnil, List.append_nil]
    exact htaken
  · exact fun hf => absurd hf Bool.false_ne_true
  · intro hf
    rw [← hpending]
    exact h.held (hfin.trans hf)
  · cases h.phase hlive with
    | waiting state ooseq received ends => exact .waiting state ooseq received (hends.trans ends)
    | receiving state queue all ends =>
      refine .receiving state queue ?_ (hends.trans ends)
      rw [hnil, List.append_nil, ← hpending]
      rwa [List.append_nil] at all
    | ended state all ends => exact .ended state all (hends.trans ends)
    | timeWait state => exact .timeWait state

theorem tell (h : Consistent s base r [] true) (hlive : r.live = true) (keep : Bool) :
    Consistent s base (r.eventClosed keep) [] false := by
  have hall := h.fin rfl
  rw [List.append_nil] at hall
  have hends : ({ r with closedCalls := r.closedCalls + 1, live := keep } : Receiver).ends false = r.ends true := by
    change r.closedCalls + 1 + r.pendingFin.toNat + 0 = r.closedCalls + r.pendingFin.toNat + 1
    omega
  have hcalled : Consistent s base { r with closedCalls := r.closedCalls + 1, live := keep } [] false := by
    refine ⟨h.received, h.taken, by simp, hends.symm ▸ h.once, fun _ => hall, h.held, by simp, h.acks, h.rcvNxt,
      fun _ => ?_⟩
    cases h.phase hlive with
    | waiting state ooseq received ends => exact .waiting state ooseq received (hends.trans ends)
    | receiving state queue all ends => exact .receiving state queue all (hends.trans ends)
    | ended state all ends => exact .ended state all (hends.trans ends)
    | timeWait state => exact .timeWait state
  rw [eventClosed]
  split_ifs
  · exact hcalled
  · exact hcalled.quiet rfl rfl (.inl rfl)

theorem refusedAgain (h : Consistent s base r [] false) (hlive : r.live = true) (answer : Answer) (keep : Bool) :
    Consistent s base (r.tcpProcessRefusedData answer keep) [] false := by
  rw [tcpProcessRefusedData]
  split
  · exact h
  · rename_i data fin hsome
    have hhand := h.unhold hsome
    cases answer with
    | ok =>
      have htake := hhand.take rfl
      cases fin with
      | true => exact htake.tell hlive keep
      | false => exact htake
    | refuse => exact h
    | abort => exact hhand.dead

theorem offerEnd (h : Consistent s base r [] true) (hlive : r.live = true) (env : Env) :
    Consistent s base (r.offerEnd env) [] false := by
  rw [Receiver.offerEnd, h.inHand (.inr rfl)]
  exact h.tell hlive env.closed

theorem deliver (h : Consistent s base r data gotFin) (hlive : r.live = true) (env : Env) :
    Consistent s base (r.deliver data gotFin env) [] false := by
  rw [Receiver.deliver, offer]
  by_cases hdata : data = []
  · subst hdata
    rw [if_pos rfl, hlive, Bool.true_and]
    cases gotFin with
    | false => exact h
    | true => exact h.offerEnd hlive env
  · have hnone := h.inHand (.inl hdata)
    rw [if_neg hdata]
    by_cases hrx : r.rxClosed = true
    · rw [if_pos hrx]
      exact h.dead
    · rw [if_neg hrx]
      cases env.recv with
      | ok =>
        have htake := h.take hnone
        dsimp only
        rw [hlive, Bool.true_and]
        rw [hlive] at htake
        cases gotFin with
        | false => exact htake
        | true => exact htake.offerEnd rfl env
      | refuse =>
        have hhold := h.hold hnone
        dsimp only
        rw [hlive, Bool.true_and]
        rw [hlive] at hhold
        cases gotFin with
        | false => exact hhold
        | true => exact hhold
      | abort => exact h.dead

theorem covers_append {k : ℕ} {more : List UInt8} (hk : r.Covers s k) (hle : r.received ++ more <+: s) :
    ({ r with received := r.received ++ more } : Receiver).Covers s k := by
  have hlen := hle.length_le
  rw [List.length_append] at hlen
  obtain hk | ⟨hk, hs⟩ := hk
  · refine .inl ?_
    dsimp only
    rw [List.length_append]
    omega
  · have hnil : more = [] := List.eq_nil_of_length_eq_zero (by rw [hs] at hlen; omega)
    subst hnil
    dsimp only [Covers]
    rw [List.append_nil]
    exact .inr ⟨hk, hs⟩

theorem receive (h : Consistent s base r [] false) (hlive : r.live = true) (hopen : Open r.pcb.state)
    {inseg : TcpSeg} {a : ℕ} (hclean : r.refusedData = none ∨ inseg.tcplen = 0)
    (harrival : Arrival s base r.received.length a r.pcb inseg) (mem copied : Bool) {q : Received}
    (hq : tcpReceive r.pcb inseg mem copied = q) {pcb : RecvPcb} (hnxt : pcb.rcvNxt = q.pcb.rcvNxt)
    (hstate : (q.gotFin = false ∧ Open pcb.state ∧ pcb.ooseq = q.pcb.ooseq) ∨
      (q.gotFin = true ∧ (Ended pcb.state ∨ pcb.state = .timeWait))) :
    Consistent s base { r with pcb := pcb, received := r.received ++ q.recvData, acks := r.acks ++ q.acks }
      q.recvData q.gotFin := by
  have hphase : Receiving s base r.received.length r.pcb ∧ r.taken ++ r.pending ++ [] = r.received ∧
      r.ends false = 0 := by
    cases h.phase hlive with
    | waiting state => simp [Open, state] at hopen
    | receiving state queue all ends => exact ⟨queue, all, ends⟩
    | ended state => obtain hs | hs | hs := state <;> simp [Open, hs] at hopen
    | timeWait state => simp [Open, state] at hopen
  obtain ⟨hqueue, hall, hends⟩ := hphase
  rw [List.append_nil] at hall
  obtain ⟨m, hle, hdel⟩ := tcpReceive_delivery hqueue harrival mem copied
  have heffects := tcpReceive_effects r.pcb inseg mem copied
  rw [hq] at hdel heffects
  have htake : s.take r.received.length = r.received := (List.prefix_iff_eq_take.mp h.received).symm
  have hbytes := hdel.bytes
  rw [htake] at hbytes
  have hlength : (r.received ++ q.recvData).length = m := by
    rw [hbytes, List.length_take_of_le hdel.bound]
  have hbegin : r.received ++ q.recvData <+: s := hbytes ▸ List.take_prefix m s
  have hzero : r.closedCalls = 0 ∧ r.pendingFin = false := by
    unfold Receiver.ends at hends
    cases hp : r.pendingFin <;> simp [hp] at hends ⊢
    exact hends
  have hfull (hf : q.gotFin = true) : r.received ++ q.recvData = s := by
    rw [hbytes, (hdel.fin hf).1, List.take_length]
  have hinHand (hsome : q.recvData ≠ [] ∨ q.gotFin = true) : r.refusedData = none := by
    refine hclean.resolve_right fun hzero => ?_
    obtain ⟨pcb', -, heq⟩ : ∃ pcb', SameQueue r.pcb pcb' ∧ tcpReceive r.pcb inseg mem copied = ⟨pcb', [], false, []⟩ :=
      tcpReceive_idle (.inl hzero) mem copied
    rw [hq] at heq
    simp [heq] at hsome
  have hcovers : ({ r with pcb := pcb, received := r.received ++ q.recvData, acks := r.acks ++ q.acks } :
      Receiver).Covers s (m + q.gotFin.toNat) := by
    cases hf : q.gotFin with
    | false => exact .inl hlength.ge
    | true => exact .inr ⟨by dsimp only; rw [hlength]; rfl, hfull hf⟩
  refine ⟨hbegin, ?_, hinHand, ?_, fun hc => absurd hzero.1 hc, fun hf => ?_, fun hf => ?_, ?_, fun _ => ?_,
    fun _ => ?_⟩
  · change r.taken ++ r.pending ++ q.recvData <+: r.received ++ q.recvData
    exact hall ▸ List.prefix_rfl
  · change r.closedCalls + r.pendingFin.toNat + q.gotFin.toNat ≤ 1
    rw [hzero.1, hzero.2, Bool.toNat_false]
    have := q.gotFin.toNat_le
    omega
  · exact absurd (hzero.2.symm.trans hf) Bool.false_ne_true
  · have hnone := pending_of_none (hinHand (.inr hf))
    rw [hnone.1, List.append_nil] at hall
    dsimp only
    rw [hall, hfull hf]
  · intro ack hack
    obtain hold | hnew := List.mem_append.mp hack
    · obtain ⟨k, hk, hackno⟩ := h.acks ack hold
      exact ⟨k, covers_append hk hbegin, hackno⟩
    · refine ⟨r.received.length, covers_append (.inl le_rfl) hbegin, ?_⟩
      rw [heffects.1 ack hnew, hqueue.rcvNxt]
  · refine ⟨_, hcovers, ?_⟩
    rw [← hdel.rcvNxt]
    exact hnxt
  · obtain ⟨hf, hopen', hooseq⟩ | ⟨hf, hst⟩ := hstate
    · refine .receiving hopen' ⟨?_, ?_, ?_⟩ ?_ ?_
      · exact hbegin.length_le
      · dsimp only
        rw [hlength, hnxt, hdel.rcvNxt, hf]
        rfl
      · dsimp only
        rw [hlength, hooseq]
        exact hdel.queue.raise (by omega)
      · change r.taken ++ r.pending ++ q.recvData = r.received ++ q.recvData
        rw [hall]
      · change r.closedCalls + r.pendingFin.toNat + q.gotFin.toNat = 0
        rw [hzero.1, hzero.2, hf]
        rfl
    · obtain hended | htw := hst
      · refine .ended hended (hfull hf) ?_
        change r.closedCalls + r.pendingFin.toNat + q.gotFin.toNat = 1
        rw [hzero.1, hzero.2, hf]
        rfl
      · exact .timeWait htw

theorem free (h : Consistent s base r data gotFin) (hstate : r.pcb.state ≠ .synSent) {pcb : RecvPcb} {live : Bool}
    (hnxt : pcb.rcvNxt = r.pcb.rcvNxt) (hlive : live = true → pcb.state = .timeWait) :
    Consistent s base { r with refusedData := none, pcb := pcb, live := live } data gotFin := by
  have hnone : ({ r with refusedData := none, pcb := pcb, live := live } : Receiver).refusedData = none := rfl
  obtain ⟨hpending, hfin⟩ := pending_of_none hnone
  refine ⟨h.received, ?_, fun _ => rfl, ?_, h.told, fun hf => ?_, h.fin, h.acks, fun _ => ?_,
    fun hl => .timeWait (hlive hl)⟩
  · rw [hpending, List.append_nil]
    by_cases hdata : data = []
    · subst hdata
      have htaken := h.taken
      rw [List.append_nil] at htaken ⊢
      exact (List.prefix_append _ _).trans htaken
    · have htaken := h.taken
      rw [(pending_of_none (h.inHand (.inl hdata))).1, List.append_nil] at htaken
      exact htaken
  · have honce := h.once
    unfold Receiver.ends at honce ⊢
    rw [hfin, Bool.toNat_false]
    change r.closedCalls + 0 + gotFin.toNat ≤ 1
    omega
  · exact absurd (hfin.symm.trans hf) Bool.false_ne_true
  · dsimp only
    rw [hnxt]
    exact h.rcvNxt hstate

theorem purge (h : Consistent s base r data gotFin) (hstate : r.pcb.state ≠ .synSent) :
    Consistent s base (r.tcpPcbPurge.setState .timeWait) data gotFin :=
  h.free hstate (by rfl) fun _ => rfl

theorem setState_ended (h : Consistent s base r [] false) {state : TcpState} (hold : Ended r.pcb.state)
    (hnew : Ended state) : Consistent s base (r.setState state) [] false := by
  have hne : r.pcb.state ≠ .synSent := by
    obtain hs | hs | hs := hold <;> simp [hs]
  refine ⟨h.received, h.taken, h.inHand, h.once, h.told, h.held, h.fin, h.acks, fun _ => h.rcvNxt hne, fun hlive => ?_⟩
  cases h.phase hlive with
  | waiting state => exact absurd state hne
  | receiving state => obtain hs | hs | hs := hold <;> simp [Open, hs] at state
  | ended _ all ends => exact .ended hnew all ends
  | timeWait state => obtain hs | hs | hs := hold <;> simp [hs] at state

theorem setState_open (h : Consistent s base r data gotFin) {state : TcpState} (hold : Open r.pcb.state)
    (hnew : Open state) : Consistent s base (r.setState state) data gotFin := by
  have hne : r.pcb.state ≠ .synSent := by
    obtain hs | hs | hs | hs := hold <;> simp [hs]
  refine ⟨h.received, h.taken, h.inHand, h.once, h.told, h.held, h.fin, h.acks, fun _ => h.rcvNxt hne, fun hlive => ?_⟩
  cases h.phase hlive with
  | waiting state => exact absurd state hne
  | receiving _ queue all ends => exact .receiving hnew ⟨queue.bound, queue.rcvNxt, queue.queue⟩ all ends
  | ended state => obtain hs | hs | hs := state <;> simp [Open, hs] at hold
  | timeWait state => simp [Open, state] at hold

theorem receive_ended (h : Consistent s base r [] false) (hended : Ended r.pcb.state) (x : Segment) (env : Env) :
    ∃ r', r.receive x env = ⟨r', [], false⟩ ∧ Consistent s base r' [] false ∧ r'.pcb.state = r.pcb.state := by
  have hidle : TcpState.closeWait.ctorIdx ≤ r.pcb.state.ctorIdx := by
    obtain hs | hs | hs := hended <;> rw [hs] <;> decide
  obtain ⟨pcb, hsame, heq⟩ : ∃ pcb, SameQueue r.pcb pcb ∧
      tcpReceive r.pcb x.seg env.mem env.copied = ⟨pcb, [], false, []⟩ := tcpReceive_idle (.inr hidle) _ _
  refine ⟨{ r with pcb := pcb }, ?_, h.quiet hsame.state hsame.rcvNxt (.inl hsame.ooseq), hsame.state⟩
  rw [Receiver.receive, heq]
  dsimp only
  rw [List.append_nil, List.append_nil]

theorem receive_open (h : Consistent s base r [] false) (hlive : r.live = true) (hopen : Open r.pcb.state) {x : Segment}
    {a : ℕ} (hclean : r.refusedData = none ∨ x.seg.tcplen = 0)
    (harrival : Arrival s base r.received.length a r.pcb x.seg) (env : Env) :
    ((r.receive x env).gotFin = false →
      Consistent s base (r.receive x env).r (r.receive x env).data false ∧ Open (r.receive x env).r.pcb.state) ∧
    ((r.receive x env).gotFin = true → ∀ state, Ended state →
      Consistent s base ((r.receive x env).r.ackNow.setState state) (r.receive x env).data true) := by
  rw [Receiver.receive]
  generalize hq : tcpReceive r.pcb x.seg env.mem env.copied = q
  have heffects := tcpReceive_effects r.pcb x.seg env.mem env.copied
  rw [hq] at heffects
  constructor
  · intro hf
    have hopen' : Open q.pcb.state := by
      rw [heffects.2 hf]
      exact hopen
    have hall := h.receive hlive hopen hclean harrival env.mem env.copied hq (rfl : q.pcb.rcvNxt = _)
      (.inl ⟨hf, hopen', rfl⟩)
    rw [show q.gotFin = false from hf] at hall
    exact ⟨hall, hopen'⟩
  · intro hf state hended
    have hnxt : ({ tcpAckNow q.pcb with state := state } : RecvPcb).rcvNxt = q.pcb.rcvNxt := rfl
    have hall := h.receive hlive hopen hclean harrival env.mem env.copied hq hnxt (.inr ⟨hf, .inl hended⟩)
    rw [show q.gotFin = true from hf] at hall
    exact hall

end Consistent

end LogoCore.Lwip
