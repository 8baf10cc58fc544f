import LogoCore.TcpSegments
import LogoCore.TcpSend

namespace LogoCore.Lwip

open Ethernet SequenceNumbers

variable {w : List UInt8} {base : UInt32} {x : ℤ}

/-- The segment is the SYN, one position before the stream `w`, or carries `w` from position `x` on. -/
def Carries (w : List UInt8) (base : UInt32) (x : ℤ) (seg : TcpSeg) : Prop :=
  x = -1 ∧ seg = ⟨number base (-1), false, true, 0, []⟩ ∨
    0 ≤ x ∧ Genuine w base x.toNat seg ∧ (0 < seg.p.length ∨ seg.fin = true)

namespace Carries

variable {seg : TcpSeg}

theorem neg_one_le (h : Carries w base x seg) : -1 ≤ x := by
  obtain ⟨rfl, -⟩ | ⟨hx, -⟩ := h
  · exact le_rfl
  · omega

theorem seqno (h : Carries w base x seg) : seg.seqno = number base x := by
  obtain ⟨rfl, rfl⟩ | ⟨hx, hg, -⟩ := h
  · rfl
  · rw [hg.seqno, Int.toNat_of_nonneg hx]

theorem len (h : Carries w base x seg) : seg.len.toNat = seg.p.length := by
  obtain ⟨-, rfl⟩ | ⟨-, hg, -⟩ := h
  · rfl
  · exact hg.len

theorem length_of_syn (h : Carries w base x seg) (hsyn : seg.syn = true) : seg.p.length = 0 := by
  obtain ⟨-, rfl⟩ | ⟨-, hg, -⟩ := h
  · rfl
  · rw [hg.syn] at hsyn
    cases hsyn

theorem tcplen (h : Carries w base x seg) : seg.tcplen.toNat = seg.p.length + seg.fin.toNat + seg.syn.toNat := by
  obtain ⟨-, rfl⟩ | ⟨-, hg, -⟩ := h
  · rfl
  · rw [hg.tcplen, hg.syn]
    rfl

theorem tcplen_pos (h : Carries w base x seg) : 0 < seg.tcplen.toNat := by
  obtain ⟨-, rfl⟩ | ⟨-, hg, hne⟩ := h
  · exact Nat.one_pos
  · rw [hg.tcplen]
    obtain hpos | hfin := hne
    · omega
    · rw [hfin]
      exact Nat.succ_pos _

theorem stop_number (h : Carries w base x seg) :
    seg.seqno + seg.tcplen.toUInt32 = number base (x + seg.tcplen.toNat) := by
  rw [h.seqno, number_add_toUInt32]

theorem stop_le (h : Carries w base x seg) : x + seg.p.length ≤ w.length := by
  obtain ⟨rfl, rfl⟩ | ⟨hx, hg, hne⟩ := h
  · simp
  · have hle := hg.end_le hne
    omega

theorem fin_eq_false (h : Carries w base x seg) (hend : x + seg.tcplen.toNat ≤ w.length) : seg.fin = false := by
  obtain ⟨-, rfl⟩ | ⟨hx, hg, -⟩ := h
  · rfl
  · cases hf : seg.fin with
    | false => rfl
    | true =>
      have hfin := hg.fin hf
      rw [hg.tcplen, hf] at hend
      simp only [Bool.toNat_true] at hend
      omega

theorem grow (h : Carries w base x seg) (hend : x + seg.tcplen.toNat ≤ w.length) (data : List UInt8) :
    Carries (w ++ data) base x seg := by
  have hfin := h.fin_eq_false hend
  obtain hsyn | ⟨hx, hg, hne⟩ := h
  · exact .inl hsyn
  · refine .inr ⟨hx, ⟨hg.seqno, hg.len, hg.short, ?_, fun hf => ?_, hg.syn⟩, hne⟩
    · have hle := hg.end_le hne
      rw [List.drop_append_of_le_length (by omega)]
      exact hg.bytes.trans (List.prefix_append _ _)
    · rw [hfin] at hf
      cases hf

end Carries

def span (q : List OutSeg) : ℕ := (q.map fun s => s.seg.tcplen.toNat).sum

@[simp]
theorem span_nil : span [] = 0 := rfl

@[simp]
theorem span_cons (s : OutSeg) (q : List OutSeg) : span (s :: q) = s.seg.tcplen.toNat + span q := List.sum_cons

@[simp]
theorem span_append (p q : List OutSeg) : span (p ++ q) = span p + span q := by
  simp only [span, List.map_append, List.sum_append]

def Chain (w : List UInt8) (base : UInt32) : ℤ → List OutSeg → Prop
  | _, [] => True
  | x, s :: rest => Carries w base x s.seg ∧ Chain w base (x + s.seg.tcplen.toNat) rest

theorem chain_append {p q : List OutSeg} :
    Chain w base x (p ++ q) ↔ Chain w base x p ∧ Chain w base (x + span p) q := by
  induction p generalizing x with
  | nil => simp [Chain]
  | cons s rest ih =>
    rw [List.cons_append, Chain, Chain, ih, span_cons, Nat.cast_add, ← add_assoc, and_assoc]

theorem Chain.mem {q : List OutSeg} (h : Chain w base x q) {s : OutSeg} (hs : s ∈ q) :
    ∃ y, Carries w base y s.seg ∧ x ≤ y ∧ y + s.seg.tcplen.toNat ≤ x + span q := by
  obtain ⟨p, t, rfl⟩ := List.append_of_mem hs
  obtain ⟨-, hcarries, -⟩ := chain_append.mp h
  refine ⟨_, hcarries, by omega, ?_⟩
  rw [span_append, span_cons]
  omega

theorem Chain.grow {q : List OutSeg} (h : Chain w base x q) (hend : x + span q ≤ w.length) (data : List UInt8) :
    Chain (w ++ data) base x q := by
  induction q generalizing x with
  | nil => trivial
  | cons s rest ih =>
    rw [span_cons] at hend
    refine ⟨h.1.grow (by omega) data, ih h.2 (by omega)⟩

theorem Carries.append_drop {seg : TcpSeg} (h : Carries w base x seg) :
    seg.p ++ w.drop (x + seg.tcplen.toNat).toNat = w.drop x.toNat := by
  obtain ⟨rfl, rfl⟩ | ⟨hx, hg, -⟩ := h
  · rfl
  · have hpos : (x + seg.tcplen.toNat).toNat = x.toNat + (seg.p.length + seg.fin.toNat) := by
      rw [hg.tcplen]
      omega
    rw [hpos, ← List.drop_drop]
    obtain ⟨t, ht⟩ := hg.bytes
    rw [← ht]
    cases hf : seg.fin with
    | false => rw [Bool.toNat_false, Nat.add_zero, List.drop_left]
    | true =>
      have hlength := congrArg List.length ht
      have hfin := hg.fin hf
      rw [List.length_append, List.length_drop] at hlength
      have htail : t = [] := List.eq_nil_of_length_eq_zero (by omega)
      rw [htail, List.append_nil, List.drop_of_length_le (Nat.le_add_right _ _), List.append_nil]

theorem Chain.data {q : List OutSeg} (h : Chain w base x q) :
    q.flatMap (fun s => s.seg.p) ++ w.drop (x + span q).toNat = w.drop x.toNat := by
  induction q generalizing x with
  | nil => simp
  | cons s rest ih =>
    have hrest := ih h.2
    rw [List.flatMap_cons, List.append_assoc, span_cons, Nat.cast_add, ← add_assoc, hrest, h.1.append_drop]

structure SendView where
  state : TcpState
  mss : UInt16
  sndWndMax : UInt16
  sndNxt : UInt32
  sndLbb : UInt32
  lastack : UInt32
  sndBuf : UInt16
  sndQueuelen : UInt16
  unsentOversize : UInt16
  fin : Bool
  unsent : List OutSeg
  unacked : List OutSeg

def SendPcb.view (pcb : SendPcb) : SendView :=
  ⟨pcb.state, pcb.mss, pcb.sndWndMax, pcb.sndNxt, pcb.sndLbb, pcb.lastack, pcb.sndBuf, pcb.sndQueuelen,
    pcb.unsentOversize, pcb.fin, pcb.unsent, pcb.unacked⟩

namespace SendView

def queue (v : SendView) : List OutSeg := v.unacked ++ v.unsent

/-- The longest segment `tcp_write` makes. -/
def mssLocal (v : SendView) : ℕ := min v.mss.toNat (v.sndWndMax.toNat / 2)

def stop (w : List UInt8) (v : SendView) : ℤ := w.length + v.fin.toNat

theorem stop_le (w : List UInt8) (v : SendView) : v.stop w ≤ w.length + 1 := by
  have hfin : v.fin.toNat ≤ 1 := Bool.toNat_le _
  rw [stop]
  omega

end SendView

def pbufs (q : List OutSeg) : ℕ := (q.map fun s => s.clen.toNat).sum

/-- The memory behind the data of the last unsent segment that `unsent_oversize` stands for. -/
def Spare (v : SendView) : Prop :=
  v.unsentOversize ≠ 0 → ∃ s, v.unsent.getLast? = some s ∧ 0 < s.seg.p.length ∧
    v.unsentOversize.toNat ≤ s.room ∧ s.seg.p.length + v.unsentOversize.toNat ≤ v.mssLocal

structure Sending (w : List UInt8) (base : UInt32) (x a n : ℤ) (v : SendView) : Prop where
  chain : Chain w base x v.queue
  total : x + span v.queue = v.stop w
  first : ∀ s, v.queue.head? = some s → a < x + s.seg.tcplen.toNat
  start_le : x ≤ a
  acked_le : a ≤ n
  unacked_le : x + span v.unacked ≤ n
  sent_le : n ≤ v.stop w
  lastack : v.lastack = number base a
  sndNxt : v.sndNxt = number base n
  buffer : ∃ l : ℤ, v.sndLbb = number base l ∧ w.length ≤ l ∧ l ≤ v.stop w ∧ v.sndBuf.toNat = tcpSndBuf + a - l
  counted : v.sndQueuelen.toNat = pbufs v.queue
  counted_le : v.sndQueuelen.toNat ≤ tcpSndQueuelen
  syn : ∀ s ∈ v.queue, s.seg.syn = true → s.clen = 1
  mss : v.mss.toNat ≤ tcpMss
  short : ∀ s ∈ v.queue, s.seg.p.length ≤ v.mssLocal
  spare : Spare v

namespace Sending

variable {a n : ℤ} {v : SendView}

theorem span_queue_le (h : Sending w base x a n v) : v.stop w ≤ a + 9001 := by
  obtain ⟨l, -, hl, hstop, hbuf⟩ := h.buffer
  have hle := v.stop_le w
  simp only [tcpSndBuf] at hbuf
  omega

theorem tcplen_le (h : Sending w base x a n v) {s : OutSeg} (hs : s ∈ v.queue) : s.seg.tcplen.toNat ≤ 1502 := by
  obtain ⟨y, hcarries, -⟩ := h.chain.mem hs
  have hshort := h.short s hs
  have hmss := h.mss
  have hfin : s.seg.fin.toNat ≤ 1 := Bool.toNat_le _
  have hsyn : s.seg.syn.toNat ≤ 1 := Bool.toNat_le _
  rw [hcarries.tcplen]
  simp only [SendView.mssLocal, tcpMss] at *
  omega

theorem start_ge (h : Sending w base x a n v) : a - 1502 ≤ x := by
  cases hq : v.queue with
  | nil =>
    have hspan := h.total
    rw [hq, span_nil] at hspan
    have ha := h.acked_le
    have hn := h.sent_le
    omega
  | cons s rest =>
    have hfirst := h.first s (by rw [hq]; rfl)
    have hlen := h.tcplen_le (s := s) (by rw [hq]; exact List.mem_cons_self)
    omega

theorem oversize_eq_zero (h : Sending w base x a n v) (hnil : v.unsent = []) : v.unsentOversize = 0 := by
  by_contra hne
  obtain ⟨s, hlast, -⟩ := h.spare hne
  rw [hnil] at hlast
  cases hlast

end Sending

section Output

variable {a n : ℤ} {v : SendView}

/-- The send queues after the segments `p` at the front of the unsent queue have gone out. -/
def SendView.sent (v : SendView) (p t : List OutSeg) (sndNxt : UInt32) : SendView :=
  { v with
    unacked := v.unacked ++ p, unsent := t, sndNxt := sndNxt, unsentOversize := if t = [] then 0 else v.unsentOversize }

theorem Sending.sent (h : Sending w base x a n v) {p t : List OutSeg} (hunsent : v.unsent = p ++ t) {m : ℤ}
    (hm : m = max n (x + span (v.unacked ++ p))) : Sending w base x a m (v.sent p t (number base m)) := by
  have hqueue : (v.sent p t (number base m)).queue = v.queue := by
    rw [SendView.queue, SendView.queue, hunsent, ← List.append_assoc]
    rfl
  have hstop := h.total
  have hunacked := h.unacked_le
  have hn := h.acked_le
  rw [SendView.queue, hunsent, span_append, span_append] at hstop
  rw [span_append] at hm
  exact { h with
    chain := hqueue ▸ h.chain
    total := hqueue ▸ h.total
    first := hqueue ▸ h.first
    acked_le := by omega
    unacked_le := by
      simp only [SendView.sent, span_append]
      omega
    sent_le := by
      have hle := h.sent_le
      change m ≤ v.stop w
      omega
    sndNxt := rfl
    counted := hqueue ▸ h.counted
    syn := hqueue ▸ h.syn
    short := hqueue ▸ h.short
    spare := by
      intro hne
      simp only [SendView.sent] at hne ⊢
      split_ifs at hne with ht
      · exact absurd rfl hne
      · obtain ⟨s, hlast, hs⟩ := h.spare hne
        rw [hunsent, List.getLast?_append_of_ne_nil _ ht] at hlast
        rw [if_neg ht]
        exact ⟨s, hlast, hs⟩ }

theorem insertUnacked_append {unacked : List OutSeg} {s : OutSeg} (hc : Chain w base x (unacked ++ [s]))
    (hspan : span unacked < 2 ^ 30) : insertUnacked s unacked = unacked ++ [s] := by
  obtain ⟨hunacked, hs, -⟩ := chain_append.mp hc
  rw [insertUnacked]
  cases hlast : unacked.getLast? with
  | none =>
    rw [List.getLast?_eq_none_iff.mp hlast]
    rfl
  | some useg =>
    obtain ⟨y, hy, hlow, hhigh⟩ := hunacked.mem (List.mem_of_getLast? hlast)
    have hnear : Near (x + span unacked) y := by
      constructor <;> omega
    have hlt : lt s.seg.seqno useg.seg.seqno = false := by
      rw [hs.seqno, hy.seqno, lt_number hnear, decide_eq_false_iff_not]
      omega
    simp only [hlt, Bool.false_eq_true, if_false]

theorem outputSegment_view {pcb : SendPcb} {s : OutSeg} (hc : Chain w base x (pcb.unacked ++ [s]))
    (hspan : span (pcb.unacked ++ [s]) < 2 ^ 30) (hnxt : pcb.sndNxt = number base n) (hlow : x ≤ n)
    (hhigh : n < x + 2 ^ 30) :
    (outputSegment pcb s).view = { pcb.view with
      unacked := pcb.unacked ++ [s], sndNxt := number base (max n (x + span (pcb.unacked ++ [s]))) } := by
  obtain ⟨-, hs, -⟩ := chain_append.mp hc
  rw [span_append, span_cons, span_nil] at hspan ⊢
  have hpos : 0 < s.seg.tcplen := UInt16.lt_iff_toNat_lt.mpr hs.tcplen_pos
  have hnear : Near n (x + span pcb.unacked + s.seg.tcplen.toNat) := by
    constructor <;> omega
  have hsnd : (if lt pcb.sndNxt (s.seg.seqno + s.seg.tcplen.toUInt32) then s.seg.seqno + s.seg.tcplen.toUInt32
      else pcb.sndNxt) = number base (max n (x + ((span pcb.unacked + (s.seg.tcplen.toNat + 0) : ℕ) : ℤ))) := by
    rw [hs.stop_number, hnxt, lt_number hnear]
    by_cases hlt : n < x + span pcb.unacked + s.seg.tcplen.toNat
    · rw [if_pos (decide_eq_true hlt)]
      congr 1
      omega
    · rw [if_neg (by simpa using hlt)]
      congr 1
      omega
  have hinsert := insertUnacked_append hc (by omega)
  simp only [outputSegment, SendPcb.view, hsnd, if_pos hpos, hinsert]

theorem outputLoop_view (wnd : UInt32) {pcb : SendPcb} {q : List OutSeg} (hc : Chain w base x (pcb.unacked ++ q))
    (hspan : span (pcb.unacked ++ q) < 2 ^ 30) (hnxt : pcb.sndNxt = number base n)
    (hlow : x + span pcb.unacked ≤ n) (hhigh : n < x + 2 ^ 30) :
    ∃ p t, q = p ++ t ∧ (outputLoop wnd pcb q).2 = p.map OutSeg.seg ∧
      (outputLoop wnd pcb q).1.view = { pcb.view with
        unacked := pcb.unacked ++ p, unsent := t, sndNxt := number base (max n (x + span (pcb.unacked ++ p))) } := by
  induction q generalizing pcb n with
  | nil =>
    refine ⟨[], [], rfl, rfl, ?_⟩
    rw [List.append_nil, max_eq_left hlow, ← hnxt]
    rfl
  | cons s rest ih =>
    rw [outputLoop]
    split_ifs with hsend
    · have hc' : Chain w base x ((pcb.unacked ++ [s]) ++ rest) := by rwa [List.append_assoc]
      have hspan' : span ((pcb.unacked ++ [s]) ++ rest) < 2 ^ 30 := by rwa [List.append_assoc]
      have hfront := chain_append.mp hc'
      have hview := outputSegment_view hfront.1 (by rw [span_append] at hspan'; omega) hnxt (by omega) hhigh
      have hunacked : (outputSegment pcb s).unacked = pcb.unacked ++ [s] := congrArg SendView.unacked hview
      have hsnd : (outputSegment pcb s).sndNxt = _ := congrArg SendView.sndNxt hview
      have hle : span (pcb.unacked ++ [s]) < 2 ^ 30 := by
        rw [span_append] at hspan'
        omega
      rw [← hunacked] at hc' hspan'
      obtain ⟨p, t, rfl, hsent, hrest⟩ := ih hc' hspan' hsnd (by rw [hunacked]; exact le_max_right _ _) (by omega)
      refine ⟨s :: p, t, rfl, ?_, ?_⟩
      · rw [List.map_cons, ← hsent]
      · have hmax : max (max n (x + span (pcb.unacked ++ [s]))) (x + span (pcb.unacked ++ [s] ++ p)) =
            max n (x + span (pcb.unacked ++ s :: p)) := by
          simp only [span_append, span_cons, span_nil]
          omega
        rw [hview, hunacked, hmax, List.append_assoc] at hrest
        exact hrest
    · refine ⟨[], s :: rest, rfl, rfl, ?_⟩
      rw [List.append_nil, max_eq_left hlow, ← hnxt]
      rfl

theorem tcpOutput_view {pcb : SendPcb} {ackNow : Bool}
    (hdata : ¬ (ackNow && pcb.unsent.head?.all fun s => !fitsWindow pcb (min pcb.sndWnd pcb.cwnd).toUInt32 s) = true) :
    let r := outputLoop (min pcb.sndWnd pcb.cwnd).toUInt32 pcb pcb.unsent
    (tcpOutput pcb ackNow).2 = r.2 ∧ (tcpOutput pcb ackNow).1.view = { r.1.view with
      unsentOversize := if r.1.view.unsent = [] then 0 else r.1.view.unsentOversize } := by
  intro r
  rw [tcpOutput, if_neg hdata]
  exact ⟨rfl, rfl⟩

theorem Sending.near (h : Sending w base x a n v) : span v.queue < 2 ^ 30 ∧ n < x + 2 ^ 30 := by
  have hspan := h.total
  have hstop := h.span_queue_le
  have hstart := h.start_ge
  have hn := h.sent_le
  constructor <;> omega

theorem tcpOutput_sending {pcb : SendPcb} (h : Sending w base x a n pcb.view) (ackNow : Bool) :
    ∃ m, n ≤ m ∧ Sending w base x a m (tcpOutput pcb ackNow).1.view ∧
      ∀ seg ∈ (tcpOutput pcb ackNow).2, ∃ s ∈ pcb.view.queue, s.seg = seg := by
  by_cases hdata : (ackNow && pcb.unsent.head?.all fun s => !fitsWindow pcb (min pcb.sndWnd pcb.cwnd).toUInt32 s) = true
  · rw [tcpOutput, if_pos hdata]
    exact ⟨n, le_rfl, h, fun seg hseg => absurd hseg List.not_mem_nil⟩
  · obtain ⟨hsent, hview⟩ := tcpOutput_view hdata
    obtain ⟨hspan, hhigh⟩ := h.near
    have hc : Chain w base x (pcb.unacked ++ pcb.unsent) := h.chain
    obtain ⟨p, t, hunsent, hloop, hloopView⟩ :=
      outputLoop_view (min pcb.sndWnd pcb.cwnd).toUInt32 hc hspan h.sndNxt h.unacked_le hhigh
    refine ⟨_, le_max_left n (x + span (pcb.view.unacked ++ p)), ?_, ?_⟩
    · rw [hview, hloopView]
      exact h.sent hunsent rfl
    · intro seg hseg
      rw [hsent, hloop] at hseg
      obtain ⟨s, hs, rfl⟩ := List.mem_map.mp hseg
      refine ⟨s, List.mem_append_right _ ?_, rfl⟩
      exact (congrArg (s ∈ ·) hunsent).mpr (List.mem_append_left _ hs)

theorem Chain.later {s t : OutSeg} {q : List OutSeg} (hc : Chain w base x (s :: q)) (hspan : span (s :: q) < 2 ^ 30)
    (ht : t ∈ q) : lt s.seg.seqno t.seg.seqno = true ∧ lt t.seg.seqno s.seg.seqno = false := by
  obtain ⟨y, hy, hlow, hhigh⟩ := hc.2.mem ht
  have hlen := hc.1.tcplen_pos
  rw [span_cons] at hspan
  have hnear : Near x y := by
    constructor <;> omega
  have hnear' : Near y x := by
    constructor <;> omega
  rw [hc.1.seqno, hy.seqno, lt_number hnear, lt_number hnear', decide_eq_true_eq, decide_eq_false_iff_not]
  omega

theorem insertSorted_front {s : OutSeg} {q : List OutSeg}
    (h : ∀ t, q.head? = some t → lt t.seg.seqno s.seg.seqno = false) : insertSorted s q = s :: q := by
  cases q with
  | nil => rfl
  | cons t q => simp only [insertSorted, h t rfl, Bool.false_eq_true, if_false]

theorem insertUnacked_front {s : OutSeg} {rest : List OutSeg} (hc : Chain w base x (s :: rest))
    (hspan : span (s :: rest) < 2 ^ 30) : insertUnacked s rest = s :: rest := by
  rw [insertUnacked]
  cases hlast : rest.getLast? with
  | none =>
    rw [List.getLast?_eq_none_iff.mp hlast]
  | some useg =>
    have hlt := (hc.later hspan (List.mem_of_getLast? hlast)).1
    simp only [hlt, if_true]
    exact insertSorted_front fun t ht => (hc.later hspan (List.mem_of_mem_head? ht)).2

def SendView.lifted (v : SendView) (s : OutSeg) (rest : List OutSeg) : SendView :=
  { v with unacked := rest, unsent := s :: v.unsent }

theorem tcpOutput_lifted {pcb : SendPcb} {s : OutSeg} {rest : List OutSeg} (h : Sending w base x a n v)
    (hunacked : v.unacked = s :: rest) (hlifted : pcb.view = v.lifted s rest)
    (hfits : fitsWindow pcb (min pcb.sndWnd pcb.cwnd).toUInt32 s = true) (hnagle : tcpDoOutputNagle pcb = true)
    (ackNow : Bool) :
    ∃ m, n ≤ m ∧ Sending w base x a m (tcpOutput pcb ackNow).1.view ∧
      ∀ seg ∈ (tcpOutput pcb ackNow).2, ∃ s ∈ v.queue, s.seg = seg := by
  have hunsent : pcb.unsent = s :: v.unsent := congrArg SendView.unsent hlifted
  have hrest : pcb.unacked = rest := congrArg SendView.unacked hlifted
  obtain ⟨hspan, hhigh⟩ := h.near
  have hqueue : v.queue = (s :: rest) ++ v.unsent := by rw [SendView.queue, hunacked]
  have hc : Chain w base x ((s :: rest) ++ v.unsent) := hqueue ▸ h.chain
  have hfront := (chain_append.mp hc).1
  rw [hqueue, span_append] at hspan
  have hle := h.unacked_le
  rw [hunacked, span_cons] at hle
  have hpos : 0 < s.seg.tcplen := UInt16.lt_iff_toNat_lt.mpr hfront.1.tcplen_pos
  have hnear : Near n (x + s.seg.tcplen.toNat) := by
    rw [span_cons] at hspan
    constructor <;> omega
  have hnxt : pcb.sndNxt = number base n := (congrArg SendView.sndNxt hlifted).trans h.sndNxt
  have hlt : lt pcb.sndNxt (s.seg.seqno + s.seg.tcplen.toUInt32) = false := by
    rw [hfront.1.stop_number, hnxt, lt_number hnear, decide_eq_false_iff_not]
    omega
  have hback : (outputSegment pcb s).view = { v with unsent := s :: v.unsent } := by
    have hinsert : insertUnacked s pcb.unacked = v.unacked := by
      rw [hrest, hunacked]
      exact insertUnacked_front hfront (by omega)
    have hview : (outputSegment pcb s).view = { pcb.view with unacked := v.unacked } := by
      simp only [outputSegment, SendPcb.view, hlt, if_pos hpos, hinsert, Bool.false_eq_true, if_false]
    rw [hview, hlifted]
    rfl
  have hdata : ¬ (ackNow && pcb.unsent.head?.all fun s =>
      !fitsWindow pcb (min pcb.sndWnd pcb.cwnd).toUInt32 s) = true := by
    simp [hunsent, hfits]
  obtain ⟨hsent, hview⟩ := tcpOutput_view hdata
  have hloop : outputLoop (min pcb.sndWnd pcb.cwnd).toUInt32 pcb pcb.unsent =
      ((outputLoop (min pcb.sndWnd pcb.cwnd).toUInt32 (outputSegment pcb s) v.unsent).1,
        s.seg :: (outputLoop (min pcb.sndWnd pcb.cwnd).toUInt32 (outputSegment pcb s) v.unsent).2) := by
    have hsame : { pcb with unsent := s :: v.unsent } = pcb := by rw [← hunsent]
    rw [hunsent, outputLoop, hsame, hfits, hnagle]
    rfl
  have hunacked' : (outputSegment pcb s).unacked = v.unacked := congrArg SendView.unacked hback
  have hc' : Chain w base x ((outputSegment pcb s).unacked ++ v.unsent) := by rwa [hunacked', hunacked]
  obtain ⟨p, t, hpt, hloopSent, hloopView⟩ :=
    outputLoop_view (min pcb.sndWnd pcb.cwnd).toUInt32 hc' (by rw [hunacked', hunacked, span_append]; exact hspan)
      ((congrArg SendView.sndNxt hback).trans h.sndNxt) (by rw [hunacked']; exact h.unacked_le) hhigh
  refine ⟨_, le_max_left n (x + span (v.unacked ++ p)), ?_, ?_⟩
  · rw [hview, hloop]
    dsimp only
    rw [hloopView, hback, hunacked']
    exact h.sent hpt rfl
  · intro seg hseg
    rw [hsent, hloop, hloopSent, List.mem_cons] at hseg
    rw [hqueue]
    obtain rfl | hseg := hseg
    · exact ⟨s, List.mem_append_left _ List.mem_cons_self, rfl⟩
    · obtain ⟨s', hs', rfl⟩ := List.mem_map.mp hseg
      exact ⟨s', List.mem_append_right _ (by rw [hpt]; exact List.mem_append_left _ hs'), rfl⟩

end Output

end LogoCore.Lwip
