import LogoCore.TcpOutOfSequence

namespace LogoCore.Lwip

open Ethernet SequenceNumbers

variable {s : List UInt8} {base : UInt32}

section InSequence

variable {hi lo n : ℕ} {inseg : TcpSeg} {q : List TcpSeg}

theorem tcplen_eq_len (hfin : inseg.fin = false) (hsyn : inseg.syn = false) : inseg.tcplen = inseg.len := by
  rw [TcpSeg.tcplen, hfin, hsyn, Bool.or_self, if_neg Bool.false_ne_true, UInt16.add_zero]

theorem inseqCovered_eq (hfin : inseg.fin = false) (hsyn : inseg.syn = false) (hq : Queued s base hi lo q) :
    inseqCovered inseg q = oosCovered inseg.seqno inseg q := by
  induction q generalizing lo with
  | nil => rfl
  | cons next rest ih =>
    obtain ⟨b, -, -, -, -, hlast, hrest⟩ := hq
    rw [inseqCovered, oosCovered, tcplen_eq_len hfin hsyn, hsyn, Bool.not_false, Bool.and_true]
    split_ifs with hcover hf
    · rw [hlast hf]
      rfl
    · exact ih hrest
    · rfl

theorem inseqTrim_eq_insert (hg : Genuine s base n inseg) (hne : 0 < inseg.p.length ∨ inseg.fin = true)
    (hend : n + inseg.p.length ≤ hi) (hq : Queued s base hi (n + 1) q) (hspan : hi < n + 2 ^ 30) :
    (inseqTrim inseg q).1 :: (inseqTrim inseg q).2 = tcpOosInsertSegment inseg.seqno inseg q ∧
      (inseqTrim inseg q).1.seqno = inseg.seqno := by
  rw [inseqTrim, tcpOosInsertSegment]
  cases hf : inseg.fin with
  | true => exact ⟨rfl, rfl⟩
  | false =>
    have hpos : 0 < inseg.p.length := hne.resolve_right (by simp [hf])
    obtain ⟨fin, hseg, -, hnil, -⟩ := oosCovered_spec hg hpos hf hend hq (by omega) hspan
    rw [if_neg Bool.false_ne_true, if_neg Bool.false_ne_true, inseqCovered_eq hf hg.syn hq]
    generalize oosCovered inseg.seqno inseg q = r at *
    obtain ⟨c, next⟩ := r
    dsimp only at hseg hnil ⊢
    subst hseg
    cases next with
    | nil => exact ⟨rfl, rfl⟩
    | cons b rest =>
      have hfin : fin = false := by
        cases fin with
        | true => cases hnil rfl
        | false => rfl
      subst hfin
      have hsyn : ({ inseg with fin := false } : TcpSeg).syn = false := hg.syn
      dsimp only
      rw [tcplen_eq_len rfl hsyn]
      split_ifs with hgt hs
      · exact absurd hs (by simp [hg.syn])
      · exact ⟨rfl, rfl⟩
      · exact ⟨rfl, rfl⟩

theorem inseqTrim_spec (hg : Genuine s base n inseg) (hne : 0 < inseg.p.length ∨ inseg.fin = true)
    (hend : n + inseg.p.length ≤ hi) (hq : Queued s base hi (n + 1) q) (hspan : hi < n + 2 ^ 30) :
    Genuine s base n (inseqTrim inseg q).1 ∧
      (0 < (inseqTrim inseg q).1.p.length ∨ (inseqTrim inseg q).1.fin = true) ∧
      ((inseqTrim inseg q).1.fin = true → (inseqTrim inseg q).2 = []) ∧
      Queued s base hi (n + (inseqTrim inseg q).1.p.length) (inseqTrim inseg q).2 := by
  obtain ⟨heq, hseqno⟩ := inseqTrim_eq_insert hg hne hend hq hspan
  have hins := queued_insert hg hne hend hq (by omega) hspan
  rw [← heq] at hins
  obtain ⟨a, ha, hahi, hgen, hgne, hlast, hrest⟩ := hins
  have hnear : Near (a : ℤ) n := by
    unfold Near
    omega
  obtain rfl : a = n := by
    have hsame := hgen.seqno.symm.trans (hseqno.trans hg.seqno)
    rw [number_inj hnear] at hsame
    omega
  exact ⟨hgen, hgne, hlast, hrest⟩

structure Delivery (s : List UInt8) (base : UInt32) (hi n₀ : ℕ) (r : Received) (n : ℕ) : Prop where
  bytes : s.take n₀ ++ r.recvData = s.take n
  bound : n ≤ s.length
  rcvNxt : r.pcb.rcvNxt = number base (n + r.gotFin.toNat : ℕ)
  queue : Queued s base hi (n + 1) r.pcb.ooseq
  fin : r.gotFin = true → n = s.length ∧ r.pcb.ooseq = []

theorem dequeue_delivery {n₀ m : ℕ} {data : List UInt8} {gotFin : Bool} {pcb : RecvPcb}
    (hdata : s.take n₀ ++ data = s.take m) (hm : m ≤ s.length)
    (hnxt : pcb.rcvNxt = number base (m + gotFin.toNat : ℕ)) (hfin : gotFin = true → m = s.length ∧ q = [])
    (hq : Queued s base hi m q) (hspan : hi < m + 2 ^ 30) :
    ∃ n, m ≤ n ∧ Delivery s base hi n₀ (dequeue pcb data gotFin q) n := by
  induction q generalizing m data gotFin pcb with
  | nil => exact ⟨m, le_rfl, hdata, hm, hnxt, trivial, fun hf => ⟨(hfin hf).1, rfl⟩⟩
  | cons cseg rest ih =>
    have hnotyet : gotFin = false := by
      cases hf : gotFin with
      | true => cases (hfin hf).2
      | false => rfl
    subst hnotyet
    have hqueue := hq
    obtain ⟨c, hc, hchi, hn, hnne, hlast, hrest⟩ := hq
    have hnear : Near (c : ℤ) (m + 0 : ℕ) := by
      unfold Near
      omega
    rw [dequeue]
    split_ifs with heq
    · rw [hn.seqno, hnxt, Bool.toNat_false, number_inj hnear] at heq
      obtain rfl : c = m := by omega
      obtain ⟨wnd, hadv⟩ := advance_eq pcb cseg
      have hnext : ((if cseg.fin && decide ((advance pcb cseg).state = .established) then
          { advance pcb cseg with state := .closeWait } else advance pcb cseg).rcvNxt) =
          number base (c + cseg.p.length + (false || cseg.fin).toNat : ℕ) := by
        have : (advance pcb cseg).rcvNxt = number base (c + cseg.p.length + cseg.fin.toNat : ℕ) := by
          rw [hadv, ← hn.seqno_add_tcplen, hn.seqno, hnxt]
          rfl
        split_ifs
        · exact this
        · exact this
      have hbytes : s.take n₀ ++ (data ++ cseg.p) = s.take (c + cseg.p.length) := by
        rw [← List.append_assoc, hdata, hn.take_append]
      obtain ⟨n, hle, hdel⟩ := ih hbytes (hn.end_le hnne) hnext (fun hf => ⟨hn.fin hf, hlast hf⟩) hrest (by omega)
      exact ⟨n, by omega, hdel⟩
    · have hdiff : c ≠ m := by
        rintro rfl
        apply heq
        rw [hn.seqno, hnxt]
        rfl
      exact ⟨m, le_rfl, hdata, hm, hnxt, ⟨c, by omega, hchi, hn, hnne, hlast, hrest⟩, fun hf => by cases hf⟩

theorem trimWindow_spec {wnd : UInt16} (hg : Genuine s base n inseg) (hne : 0 < inseg.p.length ∨ inseg.fin = true)
    (hwnd : 0 < wnd.toNat) :
    Genuine s base n (trimWindow wnd inseg) ∧
      (0 < (trimWindow wnd inseg).p.length ∨ (trimWindow wnd inseg).fin = true) ∧
      (trimWindow wnd inseg).p.length ≤ inseg.p.length := by
  have htcplen := hg.tcplen
  have hfin := inseg.fin.toNat_le
  rw [trimWindow]
  split_ifs with hover hsyn
  · exact absurd hsyn (by simp [hg.syn])
  · rw [UInt16.lt_iff_toNat_lt] at hover
    have hcut := hg.withoutFin.cut (show wnd.toNat ≤ inseg.p.length by omega) rfl
    have hlength : (TcpSeg.cut { inseg with fin := false } wnd).p.length = wnd.toNat := by
      rw [← hcut.len]
      rfl
    exact ⟨hcut, .inl (by omega), by omega⟩
  · exact ⟨hg, hne, le_rfl⟩

theorem inSequence_delivery {pcb : RecvPcb} (hnxt : pcb.rcvNxt = number base n)
    (hq : Queued s base hi (n + 1) pcb.ooseq) (hg : Genuine s base n inseg)
    (hne : 0 < inseg.p.length ∨ inseg.fin = true) (hwnd : 0 < pcb.rcvWnd.toNat)
    (hend : n + inseg.p.length ≤ hi) (hspan : hi < n + 2 ^ 30) :
    ∃ m, n ≤ m ∧ Delivery s base hi n (inSequence pcb inseg) m := by
  obtain ⟨htg, htne, htle⟩ := trimWindow_spec hg hne hwnd
  obtain ⟨hfg, hfne, hflast, hfq⟩ := inseqTrim_spec htg htne (by omega) hq hspan
  obtain ⟨wnd, hadv⟩ := advance_eq pcb (inseqTrim (trimWindow pcb.rcvWnd inseg) pcb.ooseq).1
  have hnext : (advance pcb (inseqTrim (trimWindow pcb.rcvWnd inseg) pcb.ooseq).1).rcvNxt =
      number base (n + (inseqTrim (trimWindow pcb.rcvWnd inseg) pcb.ooseq).1.p.length +
        (inseqTrim (trimWindow pcb.rcvWnd inseg) pcb.ooseq).1.fin.toNat : ℕ) := by
    rw [hadv, ← hfg.seqno_add_tcplen, hfg.seqno, hnxt]
  obtain ⟨m, hle, hdel⟩ := dequeue_delivery hfg.take_append (hfg.end_le hfne) hnext
    (fun hf => ⟨hfg.fin hf, hflast hf⟩) hfq (by omega)
  have hack (pcb : RecvPcb) : (tcpAck pcb).rcvNxt = pcb.rcvNxt ∧ (tcpAck pcb).ooseq = pcb.ooseq := by
    rw [tcpAck]
    split_ifs <;> exact ⟨rfl, rfl⟩
  refine ⟨m, by omega, hdel.bytes, hdel.bound, ?_, ?_, fun hf => ⟨(hdel.fin hf).1, ?_⟩⟩
  · exact (hack _).1.trans hdel.rcvNxt
  · rw [inSequence]
    dsimp only
    rw [(hack _).2]
    exact hdel.queue
  · exact (hack _).2.trans (hdel.fin hf).2

end InSequence

/-- The peer's stream `s` has been delivered up to position `n`, and what waits behind it is genuine. -/
structure Receiving (s : List UInt8) (base : UInt32) (n : ℕ) (pcb : RecvPcb) : Prop where
  bound : n ≤ s.length
  rcvNxt : pcb.rcvNxt = number base n
  queue : Queued s base (n + 2 ^ 18) (n + 1) pcb.ooseq

/-- A segment of the stream arrives: not older or newer than the comparisons can tell, and not behind what is expected
while only the right edge of the window has passed the wrap of the sequence numbers. -/
structure Arrival (s : List UInt8) (base : UInt32) (n a : ℕ) (pcb : RecvPcb) (inseg : TcpSeg) : Prop where
  genuine : Genuine s base a inseg
  old : n < a + (2 ^ 31 - 2 ^ 17)
  new : a < n + (2 ^ 31 - 2 ^ 17)
  turn : n < a →
    (base.toNat + n + pcb.rcvWnd.toNat) / 2 ^ 32 ≤ (base.toNat + a + inseg.tcplen.toNat) / 2 ^ 32

structure SameQueue (pcb pcb' : RecvPcb) : Prop where
  state : pcb'.state = pcb.state
  rcvNxt : pcb'.rcvNxt = pcb.rcvNxt
  rcvWnd : pcb'.rcvWnd = pcb.rcvWnd
  ooseq : pcb'.ooseq = pcb.ooseq

theorem sameQueue_emptyAck (mem : Bool) (pcb : RecvPcb) : SameQueue pcb (tcpSendEmptyAck mem pcb).2 := by
  rw [tcpSendEmptyAck]
  split_ifs
  · exact ⟨rfl, rfl, rfl, rfl⟩
  · exact ⟨rfl, rfl, rfl, rfl⟩

section Step

variable {n a : ℕ} {pcb : RecvPcb} {inseg : TcpSeg}

theorem trimFront_spec (hg : Genuine s base a inseg) (hlow : a < n) (hhigh : n < a + inseg.tcplen.toNat) :
    Genuine s base n (trimFront (number base n) inseg) ∧
      (0 < (trimFront (number base n) inseg).p.length ∨ (trimFront (number base n) inseg).fin = true) ∧
      (trimFront (number base n) inseg).p.length ≤ inseg.p.length := by
  have htcplen := hg.tcplen
  have hfin := inseg.fin.toNat_le
  have hshort := hg.short
  have hoff : (number base n - inseg.seqno).toNat = n - a := by
    rw [hg.seqno, toNat_number_sub_of_le base (by omega) (by omega)]
    omega
  have hoff16 : (number base n - inseg.seqno).toUInt16.toNat = n - a := by
    rw [hg.seqno, toUInt16_number_sub base (by omega) (by omega)]
    omega
  have hlen : (inseg.len - (number base n - inseg.seqno).toUInt16).toNat = inseg.p.length - (n - a) := by
    have hle := hg.len
    rw [UInt16.toNat_sub_of_le _ _ (UInt16.le_iff_toNat_le.mpr (by omega)), hoff16, hle]
  have hdrop := hg.drop (show n - a ≤ inseg.p.length by omega) hlen
  rw [Nat.add_sub_of_le hlow.le, ← hoff] at hdrop
  have hlength : (trimFront (number base n) inseg).p.length = inseg.p.length - (n - a) := by
    rw [← hoff]
    exact List.length_drop
  refine ⟨hdrop, ?_, by omega⟩
  cases hf : inseg.fin with
  | true => exact .inr hf
  | false =>
    rw [hf, Bool.toNat_false] at htcplen
    exact .inl (by omega)

theorem window_test (hnxt : pcb.rcvNxt = number base n) (old : n < a + (2 ^ 31 - 2 ^ 17))
    (new : a < n + (2 ^ 31 - 2 ^ 17)) :
    between (number base a) pcb.rcvNxt (pcb.rcvNxt + pcb.rcvWnd.toUInt32 - 1) =
      decide (n ≤ a ∧ a < n + pcb.rcvWnd.toNat) := by
  have hwnd := pcb.rcvWnd.toNat_lt
  have hleft : Near (a : ℤ) n := by
    unfold Near
    omega
  have hright : Near (a : ℤ) (n + pcb.rcvWnd.toNat - 1) := by
    unfold Near
    omega
  rw [hnxt, number_add_toUInt32, number_sub_one, between_number hleft hright, decide_eq_decide]
  omega

theorem front_test (h : Arrival s base n a pcb inseg) (hnxt : pcb.rcvNxt = number base n)
    (hpos : 0 < inseg.tcplen.toNat) :
    between pcb.rcvNxt (inseg.seqno + 1) (inseg.seqno + inseg.tcplen.toUInt32 - 1) =
      decide (a < n ∧ n < a + inseg.tcplen.toNat) := by
  have hold := h.old
  have hnew := h.new
  have hlen := inseg.tcplen.toNat_lt
  have hleft : Near (n : ℤ) (a + 1) := by
    unfold Near
    omega
  have hright : Near (n : ℤ) (a + inseg.tcplen.toNat - 1) := by
    unfold Near
    omega
  rw [hnxt, h.genuine.seqno, number_add_one, number_add_toUInt32, number_sub_one, between_number hleft hright,
    decide_eq_decide]
  omega

theorem nonempty_of_tcplen (hg : Genuine s base a inseg) (hpos : 0 < inseg.tcplen.toNat) :
    0 < inseg.p.length ∨ inseg.fin = true := by
  have htcplen := hg.tcplen
  cases hf : inseg.fin with
  | true => exact .inr rfl
  | false =>
    rw [hf, Bool.toNat_false] at htcplen
    exact .inl (by omega)

theorem tcpReceive_cases (h : Arrival s base n a pcb inseg) (hnxt : pcb.rcvNxt = number base n) (mem copied : Bool) :
    (∃ pcb' acks, SameQueue pcb pcb' ∧ tcpReceive pcb inseg mem copied = ⟨pcb', [], false, acks⟩) ∨
    (∃ pcb' inseg', SameQueue pcb pcb' ∧ pcb.state.ctorIdx < TcpState.closeWait.ctorIdx ∧ Genuine s base n inseg' ∧
      (0 < inseg'.p.length ∨ inseg'.fin = true) ∧ inseg'.p.length ≤ inseg.p.length ∧ 0 < pcb.rcvWnd.toNat ∧
      tcpReceive pcb inseg mem copied = inSequence pcb' inseg') ∨
    (∃ pcb' acks, SameQueue pcb pcb' ∧ n < a ∧ a < n + pcb.rcvWnd.toNat ∧
      (0 < inseg.p.length ∨ inseg.fin = true) ∧ tcpReceive pcb inseg mem copied =
        ⟨{ pcb' with ooseq := oosQueue inseg.seqno pcb' inseg copied }, [], false, acks⟩) := by
  have hg := h.genuine
  rw [tcpReceive]
  by_cases hgo : 0 < inseg.tcplen ∧ pcb.state.ctorIdx < TcpState.closeWait.ctorIdx
  · have hpos : 0 < inseg.tcplen.toNat := UInt16.lt_iff_toNat_lt.mp hgo.1
    rw [if_pos hgo, front_test h hnxt hpos]
    by_cases hfront : a < n ∧ n < a + inseg.tcplen.toNat
    · obtain ⟨htg, htne, htle⟩ := trimFront_spec hg hfront.1 hfront.2
      rw [decide_eq_true hfront]
      simp only [Bool.not_true, Bool.false_and, Bool.false_eq_true, if_false, if_true]
      rw [← hnxt] at htg htne htle
      have hwindow : between (trimFront pcb.rcvNxt inseg).seqno pcb.rcvNxt (pcb.rcvNxt + pcb.rcvWnd.toUInt32 - 1) =
          decide (n ≤ n ∧ n < n + pcb.rcvWnd.toNat) := by
        rw [htg.seqno]
        exact window_test hnxt (by omega) (by omega)
      rw [hwindow, if_pos (show pcb.rcvNxt = (trimFront pcb.rcvNxt inseg).seqno from rfl)]
      by_cases hwnd : 0 < pcb.rcvWnd.toNat
      · rw [if_pos (decide_eq_true (by omega))]
        exact .inr (.inl ⟨pcb, _, ⟨rfl, rfl, rfl, rfl⟩, hgo.2, htg, htne, htle, hwnd, rfl⟩)
      · rw [if_neg (by simpa using hwnd)]
        exact .inl ⟨_, _, sameQueue_emptyAck mem pcb, rfl⟩
    · rw [decide_eq_false hfront]
      simp only [Bool.not_false, Bool.true_and, Bool.false_eq_true, if_false]
      obtain ⟨pcb', hpcb', hsame⟩ : ∃ pcb',
          (if lt inseg.seqno pcb.rcvNxt = true then tcpAckNow pcb else pcb) = pcb' ∧ SameQueue pcb pcb' := by
        split_ifs
        · exact ⟨_, rfl, rfl, rfl, rfl, rfl⟩
        · exact ⟨_, rfl, rfl, rfl, rfl, rfl⟩
      rw [hpcb', hg.seqno, window_test (hsame.rcvNxt.trans hnxt) h.old h.new, hsame.rcvWnd]
      have htrans {pcb'' : RecvPcb} (h' : SameQueue pcb' pcb'') : SameQueue pcb pcb'' :=
        ⟨h'.state.trans hsame.state, h'.rcvNxt.trans hsame.rcvNxt, h'.rcvWnd.trans hsame.rcvWnd,
          h'.ooseq.trans hsame.ooseq⟩
      have hnear : Near (n : ℤ) a := by
        have := h.old
        have := h.new
        unfold Near
        omega
      by_cases hwin : n ≤ a ∧ a < n + pcb.rcvWnd.toNat
      · rw [if_pos (decide_eq_true hwin), hsame.rcvNxt, hnxt]
        by_cases heq : n = a
        · subst heq
          rw [if_pos rfl]
          exact .inr (.inl ⟨pcb', inseg, hsame, hgo.2, hg, nonempty_of_tcplen hg hpos, le_rfl, by omega, rfl⟩)
        · have hdiff : number base n ≠ number base a := by
            rw [Ne, number_inj hnear]
            omega
          rw [if_neg hdiff]
          exact .inr (.inr ⟨_, _, htrans (sameQueue_emptyAck mem pcb'), by omega, hwin.2, nonempty_of_tcplen hg hpos,
            rfl⟩)
      · rw [if_neg (by simpa using hwin)]
        exact .inl ⟨_, _, htrans (sameQueue_emptyAck mem pcb'), rfl⟩
  · rw [if_neg hgo]
    split_ifs
    · exact .inl ⟨pcb, _, ⟨rfl, rfl, rfl, rfl⟩, rfl⟩
    · exact .inl ⟨tcpAckNow pcb, _, ⟨rfl, rfl, rfl, rfl⟩, rfl⟩

theorem queued_oosQueue {hi : ℕ} {copied : Bool} (hq : Queued s base hi (n + 1) pcb.ooseq)
    (hg : Genuine s base a inseg) (hne : 0 < inseg.p.length ∨ inseg.fin = true) (hend : a + inseg.p.length ≤ hi)
    (hw : InWindow base n a pcb) (hna : n < a) (hedge : EdgeSound base n a pcb inseg) (hspan : hi < n + 2 ^ 30) :
    Queued s base hi (n + 1) (oosQueue inseg.seqno pcb inseg copied) := by
  rw [oosQueue]
  split
  · split_ifs
    · exact ⟨a, hna, hend, hg, hne, fun _ => rfl, trivial⟩
    · trivial
  · rename_i next rest hqueue
    rw [hqueue] at hq
    exact queued_walk hg hne hend hw hedge (passed_none hna (by omega) (by omega)) hq le_rfl hna (by omega)

theorem tcpReceive_delivery (hr : Receiving s base n pcb) (h : Arrival s base n a pcb inseg) (mem copied : Bool) :
    ∃ m, n ≤ m ∧ Delivery s base (n + 2 ^ 18) n (tcpReceive pcb inseg mem copied) m := by
  have hshort := h.genuine.short
  have hwnd := pcb.rcvWnd.toNat_lt
  obtain ⟨pcb', acks, hsame, heq⟩ | ⟨pcb', inseg', hsame, -, hg, hne, hle, hpos, heq⟩ |
    ⟨pcb', acks, hsame, hna, hright, hne, heq⟩ := tcpReceive_cases h hr.rcvNxt mem copied
  · rw [heq]
    refine ⟨n, le_rfl, List.append_nil _, hr.bound, hsame.rcvNxt.trans hr.rcvNxt, ?_, fun hf => by cases hf⟩
    rw [hsame.ooseq]
    exact hr.queue
  · rw [heq]
    apply inSequence_delivery (hsame.rcvNxt.trans hr.rcvNxt) _ hg hne _ (by omega) (by omega)
    · rw [hsame.ooseq]
      exact hr.queue
    · rw [hsame.rcvWnd]
      exact hpos
  · rw [heq]
    refine ⟨n, le_rfl, List.append_nil _, hr.bound, hsame.rcvNxt.trans hr.rcvNxt, ?_, fun hf => by cases hf⟩
    have hw : InWindow base n a pcb' :=
      ⟨hsame.rcvNxt.trans hr.rcvNxt, hna.le, by rw [hsame.rcvWnd]; exact hright⟩
    have hedge : EdgeSound base n a pcb' inseg :=
      edgeSound_of_turn hw.rcvNxt (by rw [hsame.rcvWnd]; exact h.turn hna)
    apply queued_oosQueue _ h.genuine hne (by omega) hw hna hedge (by omega)
    rw [hsame.ooseq]
    exact hr.queue

theorem tcpReceive_idle (h : inseg.tcplen = 0 ∨ TcpState.closeWait.ctorIdx ≤ pcb.state.ctorIdx) (mem copied : Bool) :
    ∃ pcb', SameQueue pcb pcb' ∧ tcpReceive pcb inseg mem copied = ⟨pcb', [], false, []⟩ := by
  have hstop : ¬ (0 < inseg.tcplen ∧ pcb.state.ctorIdx < TcpState.closeWait.ctorIdx) := by
    rintro ⟨hlen, hstate⟩
    obtain hzero | hle := h
    · rw [hzero] at hlen
      exact absurd hlen (by decide)
    · omega
  rw [tcpReceive, if_neg hstop]
  split_ifs
  · exact ⟨pcb, ⟨rfl, rfl, rfl, rfl⟩, rfl⟩
  · exact ⟨tcpAckNow pcb, ⟨rfl, rfl, rfl, rfl⟩, rfl⟩

theorem dequeue_acks (pcb : RecvPcb) (data : List UInt8) (gotFin : Bool) (q : List TcpSeg) :
    (dequeue pcb data gotFin q).acks = [] := by
  induction q generalizing pcb data gotFin with
  | nil => rfl
  | cons cseg rest ih =>
    rw [dequeue]
    split_ifs
    · exact ih _ _ _
    · rfl

theorem dequeue_state {pcb : RecvPcb} {data : List UInt8} {gotFin : Bool} {q : List TcpSeg}
    (h : (dequeue pcb data gotFin q).gotFin = false) :
    gotFin = false ∧ (dequeue pcb data gotFin q).pcb.state = pcb.state := by
  induction q generalizing pcb data gotFin with
  | nil => exact ⟨h, rfl⟩
  | cons cseg rest ih =>
    rw [dequeue] at h ⊢
    split_ifs at h ⊢ with heq
    · obtain ⟨hfin, hstate⟩ := ih h
      obtain ⟨hgot, hseg⟩ := Bool.or_eq_false_iff.mp hfin
      obtain ⟨wnd, hadv⟩ := advance_eq pcb cseg
      refine ⟨hgot, hstate.trans ?_⟩
      rw [hseg, Bool.false_and, if_neg Bool.false_ne_true, hadv]
    · exact ⟨h, rfl⟩

theorem emptyAck_acks {mem : Bool} {ack : Ack} (h : ack ∈ (tcpSendEmptyAck mem pcb).1) : ack.ackno = pcb.rcvNxt := by
  rw [tcpSendEmptyAck] at h
  split_ifs at h
  · rw [List.mem_singleton.mp h]
    rfl
  · cases h

theorem advance_state (pcb : RecvPcb) (seg : TcpSeg) : (advance pcb seg).state = pcb.state := by
  obtain ⟨wnd, hadv⟩ := advance_eq pcb seg
  rw [hadv]

theorem inSequence_state (h : (inSequence pcb inseg).gotFin = false) :
    (inSequence pcb inseg).pcb.state = pcb.state := by
  have hack (pcb : RecvPcb) : (tcpAck pcb).state = pcb.state := by
    rw [tcpAck]
    split_ifs <;> rfl
  exact (hack _).trans ((dequeue_state h).2.trans (advance_state _ _))

theorem tcpReceive_effects (pcb : RecvPcb) (inseg : TcpSeg) (mem copied : Bool) :
    (∀ ack ∈ (tcpReceive pcb inseg mem copied).acks, ack.ackno = pcb.rcvNxt) ∧
      ((tcpReceive pcb inseg mem copied).gotFin = false →
        (tcpReceive pcb inseg mem copied).pcb.state = pcb.state) := by
  unfold tcpReceive
  dsimp only
  obtain ⟨pcb', hpcb', hsame⟩ : ∃ pcb', (if (!between pcb.rcvNxt (inseg.seqno + 1)
      (inseg.seqno + inseg.tcplen.toUInt32 - 1) && lt inseg.seqno pcb.rcvNxt) = true then tcpAckNow pcb else pcb) =
        pcb' ∧ SameQueue pcb pcb' := by
    split_ifs
    · exact ⟨_, rfl, rfl, rfl, rfl, rfl⟩
    · exact ⟨_, rfl, rfl, rfl, rfl, rfl⟩
  rw [hpcb']
  generalize (if between pcb.rcvNxt (inseg.seqno + 1) (inseg.seqno + inseg.tcplen.toUInt32 - 1) = true then
    trimFront pcb'.rcvNxt inseg else inseg) = inseg'
  have hempty := sameQueue_emptyAck mem pcb'
  split_ifs
  · exact ⟨by rw [show (inSequence pcb' _).acks = [] from dequeue_acks _ _ _ _]; simp,
      fun h => (inSequence_state h).trans hsame.state⟩
  · exact ⟨fun ack hack => (emptyAck_acks hack).trans hsame.rcvNxt, fun _ => hempty.state.trans hsame.state⟩
  · exact ⟨fun ack hack => (emptyAck_acks hack).trans hsame.rcvNxt, fun _ => hempty.state.trans hsame.state⟩
  · exact ⟨by simp, fun _ => rfl⟩
  · exact ⟨by simp, fun _ => rfl⟩

end Step

end LogoCore.Lwip
