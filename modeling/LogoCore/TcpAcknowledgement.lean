import LogoCore.TcpSendQueue

namespace LogoCore.Lwip

open Ethernet SequenceNumbers

variable {w : List UInt8} {base : UInt32} {x a n k : ℤ}

theorem pbufs_cons (s : OutSeg) (q : List OutSeg) : pbufs (s :: q) = s.clen.toNat + pbufs q := List.sum_cons

theorem pbufs_append (p q : List OutSeg) : pbufs (p ++ q) = pbufs p + pbufs q := by
  simp only [pbufs, List.map_append, List.sum_append]

structure Covered (x k : ℤ) (q p t : List OutSeg) : Prop where
  split : q = p ++ t
  covered : x + span p ≤ k
  rest : ∀ s, t.head? = some s → k < x + span p + s.seg.tcplen.toNat

theorem Covered.cons {s : OutSeg} {q p t : List OutSeg} (h : Covered (x + s.seg.tcplen.toNat) k q p t) :
    Covered x k (s :: q) (s :: p) t := by
  obtain ⟨rfl, hcovered, hrest⟩ := h
  refine ⟨rfl, ?_, fun r hr => ?_⟩
  · rw [span_cons]
    omega
  · have hr := hrest r hr
    rw [span_cons]
    omega

theorem covered_none {s : OutSeg} {q : List OutSeg} (hstart : x ≤ k) (hstop : k < x + s.seg.tcplen.toNat) :
    Covered x k (s :: q) [] (s :: q) := by
  refine ⟨rfl, by simpa using hstart, fun r hr => ?_⟩
  obtain rfl : s = r := Option.some_inj.mp hr
  simpa using hstop

theorem toNat_sub_clen {c : UInt16} {s : OutSeg} {m : ℕ} (h : s.clen.toNat + m ≤ c.toNat) :
    (c - s.clen).toNat = c.toNat - s.clen.toNat := by
  rw [UInt16.toNat_sub_of_le]
  exact UInt16.le_iff_toNat_le.mpr (by omega)

theorem freeUnacked_view {pcb : SendPcb} {q : List OutSeg} (hc : Chain w base x q) (hspan : span q < 2 ^ 30)
    (hstart : x ≤ k) (hnear : k < x + 2 ^ 30) (hcount : pbufs q ≤ pcb.sndQueuelen.toNat) :
    ∃ p t c, Covered x k q p t ∧ c.toNat + pbufs p = pcb.sndQueuelen.toNat ∧
      (freeUnacked (number base k) pcb q).view = { pcb.view with unacked := t, sndQueuelen := c } := by
  induction q generalizing pcb x with
  | nil => exact ⟨[], [], pcb.sndQueuelen, ⟨rfl, by simpa using hstart, fun s hs => by cases hs⟩, rfl, rfl⟩
  | cons s rest ih =>
    rw [span_cons] at hspan
    rw [pbufs_cons] at hcount
    have hstop : Near (x + s.seg.tcplen.toNat) k := by
      constructor <;> omega
    rw [freeUnacked, hc.1.stop_number, leq_number hstop]
    by_cases hle : x + s.seg.tcplen.toNat ≤ k
    · rw [if_pos (decide_eq_true hle)]
      have hqueuelen : (freeAcked pcb s).sndQueuelen.toNat = pcb.sndQueuelen.toNat - s.clen.toNat :=
        toNat_sub_clen hcount
      have hcount' : pbufs rest ≤ (freeAcked pcb s).sndQueuelen.toNat := by omega
      obtain ⟨p, t, c, hcovered, hc', hview⟩ := ih hc.2 (by omega) hle (by omega) hcount'
      refine ⟨s :: p, t, c, hcovered.cons, ?_, hview⟩
      rw [pbufs_cons]
      omega
    · rw [if_neg (by simpa using hle)]
      exact ⟨[], s :: rest, pcb.sndQueuelen, covered_none hstart (by omega), rfl, rfl⟩

theorem freeUnsent_view {pcb : SendPcb} {q : List OutSeg} (hc : Chain w base x q) (hspan : span q < 2 ^ 30)
    (hstart : x ≤ k) (hnear : k < x + 2 ^ 30) (hnxt : pcb.sndNxt = number base n) (hkn : k ≤ n)
    (hn : n < k + 2 ^ 30) (hcount : pbufs q ≤ pcb.sndQueuelen.toNat) (hzero : q = [] → pcb.unsentOversize = 0) :
    ∃ p t c, Covered x k q p t ∧ c.toNat + pbufs p = pcb.sndQueuelen.toNat ∧
      (freeUnsent (number base k) pcb q).view = { pcb.view with
        unsent := t, sndQueuelen := c, unsentOversize := if t = [] then 0 else pcb.unsentOversize } := by
  induction q generalizing pcb x with
  | nil =>
    refine ⟨[], [], pcb.sndQueuelen, ⟨rfl, by simpa using hstart, fun s hs => by cases hs⟩, rfl, ?_⟩
    rw [if_pos rfl, ← hzero rfl]
    rfl
  | cons s rest ih =>
    rw [span_cons] at hspan
    rw [pbufs_cons] at hcount
    have hstop : Near k (x + s.seg.tcplen.toNat) := by
      constructor <;> omega
    have hsent : Near k n := by
      constructor <;> omega
    have htest : between (number base k) (s.seg.seqno + s.seg.tcplen.toUInt32) pcb.sndNxt =
        decide (x + s.seg.tcplen.toNat ≤ k ∧ k ≤ n) := by
      rw [hc.1.stop_number, hnxt, between_number hstop hsent]
    rw [freeUnsent, htest]
    by_cases hle : x + s.seg.tcplen.toNat ≤ k
    · rw [if_pos (decide_eq_true ⟨hle, hkn⟩)]
      have hqueuelen : (freeAcked pcb s).sndQueuelen.toNat = pcb.sndQueuelen.toNat - s.clen.toNat :=
        toNat_sub_clen hcount
      dsimp only
      obtain rfl | hne := eq_or_ne rest []
      · refine ⟨[s], [], (freeAcked pcb s).sndQueuelen, ⟨rfl, by simpa using hle, fun s hs => by cases hs⟩, ?_, ?_⟩
        · rw [hqueuelen, pbufs_cons]
          simp only [pbufs, List.map_nil, List.sum_nil] at hcount ⊢
          omega
        · rw [if_pos rfl, if_pos rfl]
          rfl
      · rw [if_neg hne]
        have hcount' : pbufs rest ≤ (freeAcked pcb s).sndQueuelen.toNat := by omega
        have hnxt' : (freeAcked pcb s).sndNxt = number base n := hnxt
        obtain ⟨p, t, c, hcovered, hc', hview⟩ :=
          ih hc.2 (by omega) hle (by omega) hnxt' hcount' (fun h => absurd h hne)
        refine ⟨s :: p, t, c, hcovered.cons, ?_, hview⟩
        rw [pbufs_cons]
        omega
    · rw [if_neg (by simp only [decide_eq_true_eq]; omega)]
      refine ⟨[], s :: rest, pcb.sndQueuelen, covered_none hstart (by omega), rfl, ?_⟩
      rw [if_neg (List.cons_ne_nil _ _)]
      rfl

theorem freeUnsent_idle {pcb : SendPcb} {ackno : UInt32}
    (h : ∀ s, pcb.unsent.head? = some s → between ackno (s.seg.seqno + s.seg.tcplen.toUInt32) pcb.sndNxt = false) :
    freeUnsent ackno pcb pcb.unsent = pcb := by
  cases hq : pcb.unsent with
  | nil =>
    rw [freeUnsent, ← hq]
  | cons s rest =>
    have hs := h s (by rw [hq]; rfl)
    simp only [freeUnsent, hs, Bool.false_eq_true, if_false]
    rw [← hq]

theorem Sending.acknowledge {v : SendView} (h : Sending w base x a n v) (hak : a < k) (hkn : k ≤ n)
    {p unacked unsent : List OutSeg} (hcovered : Covered x k v.queue p (unacked ++ unsent))
    (hsuffix : unsent <:+ v.unsent) (hunacked : x + span p + span unacked ≤ n) {c : UInt16}
    (hc : c.toNat + pbufs p = v.sndQueuelen.toNat) :
    Sending w base (x + span p) k n { v with
      lastack := number base k, sndBuf := v.sndBuf + (number base k - v.lastack).toUInt16, sndQueuelen := c,
      unacked := unacked, unsent := unsent, unsentOversize := if unsent = [] then 0 else v.unsentOversize } := by
  have hchain := h.chain
  have htotal := h.total
  have hcounted := h.counted
  rw [hcovered.split] at hchain htotal hcounted
  rw [span_append] at htotal
  rw [pbufs_append] at hcounted
  have hmem : ∀ s ∈ unacked ++ unsent, s ∈ v.queue := by
    intro s hs
    rw [hcovered.split]
    exact List.mem_append_right _ hs
  have hstop := h.span_queue_le
  have hsent := h.sent_le
  have hle := h.counted_le
  refine
    { chain := (chain_append.mp hchain).2
      total := ?_
      first := hcovered.rest
      start_le := hcovered.covered
      acked_le := hkn
      unacked_le := hunacked
      sent_le := h.sent_le
      lastack := rfl
      sndNxt := h.sndNxt
      buffer := ?_
      counted := ?_
      counted_le := ?_
      syn := fun s hs => h.syn s (hmem s hs)
      mss := h.mss
      short := fun s hs => h.short s (hmem s hs)
      spare := ?_ }
  · change x + span p + span (unacked ++ unsent) = v.stop w
    omega
  · obtain ⟨l, hl, hlow, hhigh, hbuf⟩ := h.buffer
    refine ⟨l, hl, hlow, hhigh, ?_⟩
    have hacked := toUInt16_number_sub base hak.le (by omega : k - a < 2 ^ 16)
    rw [← h.lastack] at hacked
    have hend := v.stop_le w
    rw [UInt16.toNat_add]
    simp only [tcpSndBuf] at hbuf ⊢
    omega
  · change c.toNat = pbufs (unacked ++ unsent)
    omega
  · change c.toNat ≤ _
    omega
  · intro hne
    dsimp only at hne ⊢
    split_ifs at hne ⊢ with hnil
    · exact absurd rfl hne
    · obtain ⟨s, hlast, hs⟩ := h.spare hne
      obtain ⟨gone, hgone⟩ := hsuffix
      rw [← hgone, List.getLast?_append_of_ne_nil _ hnil] at hlast
      exact ⟨s, hlast, hs⟩

theorem growCwnd_view (pcb : SendPcb) : (growCwnd pcb).view = pcb.view := by
  dsimp only [growCwnd]
  split_ifs <;> rfl

theorem newAck_view {pcb : SendPcb} (h : Sending w base x a n pcb.view) (hak : a < k) (hkn : k ≤ n) :
    ∃ p t c, Covered x k pcb.unacked p t ∧ c.toNat + pbufs p = pcb.sndQueuelen.toNat ∧
      (newAck pcb (number base k)).view = { pcb.view with
        lastack := number base k, sndBuf := pcb.sndBuf + (number base k - pcb.lastack).toUInt16, unacked := t,
        sndQueuelen := c } := by
  have hchain : Chain w base x (pcb.unacked ++ pcb.unsent) := h.chain
  have hcounted : pcb.sndQueuelen.toNat = pbufs (pcb.unacked ++ pcb.unsent) := h.counted
  obtain ⟨hspan, hnear⟩ := h.near
  have hqueue : span pcb.view.queue = span pcb.unacked + span pcb.unsent := span_append _ _
  have hstart := h.start_le
  rw [pbufs_append] at hcounted
  rw [newAck]
  have hinfr : (if pcb.infr then { pcb with infr := false, cwnd := pcb.ssthresh } else pcb).view = pcb.view := by
    split_ifs <;> rfl
  generalize (if pcb.infr then { pcb with infr := false, cwnd := pcb.ssthresh } else pcb) = pcb₁ at hinfr
  dsimp only
  have hlastack : pcb₁.lastack = pcb.lastack := congrArg SendView.lastack hinfr
  have hbuf : pcb₁.sndBuf = pcb.sndBuf := congrArg SendView.sndBuf hinfr
  rw [hlastack, hbuf]
  have hgrow := growCwnd_view { pcb₁ with
    acked := (number base k - pcb.lastack).toUInt16
    sndBuf := pcb.sndBuf + (number base k - pcb.lastack).toUInt16, dupacks := 0, lastack := number base k }
  generalize growCwnd { pcb₁ with
    acked := (number base k - pcb.lastack).toUInt16
    sndBuf := pcb.sndBuf + (number base k - pcb.lastack).toUInt16, dupacks := 0, lastack := number base k } = pcb₂
    at hgrow ⊢
  have hview : pcb₂.view = { pcb.view with
      lastack := number base k, sndBuf := pcb.sndBuf + (number base k - pcb.lastack).toUInt16 } := by
    rw [hgrow, ← hinfr]
    rfl
  have hunacked : pcb₂.unacked = pcb.unacked := congrArg SendView.unacked hview
  have hqueuelen : pcb₂.sndQueuelen = pcb.sndQueuelen := congrArg SendView.sndQueuelen hview
  rw [hunacked]
  have hcount : pbufs pcb.unacked ≤ pcb₂.sndQueuelen.toNat := by
    rw [hqueuelen]
    omega
  obtain ⟨p, t, c, hcovered, hc, hfree⟩ :=
    freeUnacked_view (chain_append.mp hchain).1 (by omega) (by omega : x ≤ k) (by omega) hcount
  refine ⟨p, t, c, hcovered, by rw [hc, hqueuelen], ?_⟩
  change (freeUnacked (number base k) pcb₂ pcb.unacked).view = _
  rw [hfree, hview]

theorem newAck_sending {pcb : SendPcb} (h : Sending w base x a n pcb.view) (hak : a < k) (hkn : k ≤ n) :
    let pcb' := freeUnsent (number base k) (newAck pcb (number base k)) (newAck pcb (number base k)).unsent
    pcb'.state = pcb.state ∧ pcb'.fin = pcb.fin ∧ ∃ x', Sending w base x' k n pcb'.view := by
  obtain ⟨p, t, c, hcovered, hc, hview⟩ := newAck_view h hak hkn
  generalize newAck pcb (number base k) = pcb₁ at hview ⊢
  intro pcb'
  have hunsent : pcb₁.unsent = pcb.unsent := congrArg SendView.unsent hview
  have hnxt : pcb₁.sndNxt = number base n := (congrArg SendView.sndNxt hview).trans h.sndNxt
  have hchain : Chain w base x (pcb.unacked ++ pcb.unsent) := h.chain
  have hcounted : pcb.sndQueuelen.toNat = pbufs (pcb.unacked ++ pcb.unsent) := h.counted
  have hunacked : x + span pcb.unacked ≤ n := h.unacked_le
  obtain ⟨hspan, hnear⟩ := h.near
  have hqueue : span pcb.view.queue = span pcb.unacked + span pcb.unsent := span_append _ _
  have hstart := h.start_le
  have hbound := h.span_queue_le
  have hsent := h.sent_le
  have hpt := hcovered.split
  have hspans : span pcb.unacked = span p + span t := by rw [hpt, span_append]
  have hcovers := hcovered.covered
  rw [pbufs_append] at hcounted
  cases t with
  | nil =>
    rw [List.append_nil] at hpt
    rw [span_nil, Nat.add_zero] at hspans
    have hqueuelen : pcb₁.sndQueuelen.toNat = c.toNat := congrArg (fun v => v.sndQueuelen.toNat) hview
    have hzero : pcb.unsent = [] → pcb₁.unsentOversize = 0 := fun hnil =>
      (congrArg SendView.unsentOversize hview).trans (h.oversize_eq_zero hnil)
    obtain ⟨p', t', c', hcovered', hc', hfree⟩ := freeUnsent_view (chain_append.mp hchain).2 (by omega)
      (by omega : x + span pcb.unacked ≤ k) (by omega) hnxt hkn (by omega) (by rw [← hpt] at hc; omega) hzero
    have hpcb' : pcb' = freeUnsent (number base k) pcb₁ pcb.unsent :=
      congrArg (freeUnsent (number base k) pcb₁) hunsent
    have hoversize : pcb₁.unsentOversize = pcb.unsentOversize := congrArg SendView.unsentOversize hview
    rw [hoversize, hview] at hfree
    rw [hpcb']
    have hall : Covered x k pcb.view.queue (pcb.unacked ++ p') ([] ++ t') := by
      refine ⟨?_, ?_, ?_⟩
      · change pcb.unacked ++ pcb.unsent = _
        rw [hcovered'.split, List.nil_append, List.append_assoc]
      · have hle := hcovered'.covered
        rw [span_append]
        omega
      · intro s hs
        have hlt := hcovered'.rest s hs
        rw [span_append]
        omega
    refine ⟨congrArg SendView.state hfree, congrArg SendView.fin hfree, x + span (pcb.unacked ++ p'), ?_⟩
    rw [hfree]
    refine h.acknowledge hak hkn hall ⟨p', hcovered'.split.symm⟩ ?_ ?_
    · have hle := hall.covered
      rw [span_nil]
      omega
    · change c'.toNat + pbufs _ = pcb.sndQueuelen.toNat
      rw [pbufs_append]
      rw [← hpt] at hc
      omega
  | cons s rest =>
    have hrest := hcovered.rest s rfl
    have hidle : pcb' = pcb₁ := by
      apply freeUnsent_idle
      intro u hu
      rw [hunsent] at hu
      obtain ⟨us, hus⟩ := List.head?_eq_some_iff.mp hu
      have hcarries : Carries w base (x + span pcb.unacked) u.seg := by
        have hchain' := (chain_append.mp hchain).2
        rw [hus] at hchain'
        exact hchain'.1
      have hfirst : span pcb.unsent = u.seg.tcplen.toNat + span us := by rw [hus, span_cons]
      rw [span_cons] at hspans
      have hstop : Near k (x + span pcb.unacked + u.seg.tcplen.toNat) := by
        constructor <;> omega
      have hkn' : Near k n := by
        constructor <;> omega
      rw [hcarries.stop_number, hnxt, between_number hstop hkn', decide_eq_false_iff_not]
      omega
    have hall : Covered x k pcb.view.queue p ((s :: rest) ++ pcb.unsent) := by
      refine ⟨?_, hcovers, ?_⟩
      · change pcb.unacked ++ pcb.unsent = _
        rw [hpt, List.append_assoc]
      · intro u hu
        exact hcovered.rest u hu
    have hsend := h.acknowledge hak hkn hall (List.suffix_refl _) (by omega) hc
    have hoversize : (if pcb.unsent = [] then 0 else pcb.view.unsentOversize) = pcb.view.unsentOversize := by
      split_ifs with hnil
      · exact (h.oversize_eq_zero hnil).symm
      · rfl
    rw [hoversize] at hsend
    rw [hidle]
    refine ⟨congrArg SendView.state hview, congrArg SendView.fin hview, x + span p, ?_⟩
    rw [hview]
    exact hsend

theorem Sending.widen {v : SendView} (h : Sending w base x a n v) {m : UInt16} (hm : v.sndWndMax ≤ m) :
    Sending w base x a n { v with sndWndMax := m } := by
  have hle : v.mssLocal ≤ SendView.mssLocal { v with sndWndMax := m } := by
    have hm := UInt16.le_iff_toNat_le.mp hm
    simp only [SendView.mssLocal]
    omega
  exact { h with
    short := fun s hs => (h.short s hs).trans hle
    spare := by
      intro hne
      obtain ⟨s, hlast, hpos, hroom, hfit⟩ := h.spare hne
      exact ⟨s, hlast, hpos, hroom, hfit.trans hle⟩ }

theorem updateWindow_sending {pcb : SendPcb} (h : Sending w base x a n pcb.view) (seqno ackno : UInt32) (wnd : UInt16) :
    Sending w base x a n (updateWindow pcb seqno ackno wnd).view := by
  rw [updateWindow]
  split_ifs
  · exact h.widen (UInt16.le_of_lt ‹_›)
  · exact h.widen (UInt16.le_refl _)
  · exact h

structure ThirdDuplicate (pcb : SendPcb) (ackno : UInt32) : Prop where
  lastack : pcb.lastack = ackno
  dupacks : pcb.dupacks = 2
  infr : pcb.infr = false

theorem updateWindow_frame (pcb : SendPcb) (seqno ackno : UInt32) (wnd : UInt16) :
    (updateWindow pcb seqno ackno wnd).state = pcb.state ∧ (updateWindow pcb seqno ackno wnd).fin = pcb.fin ∧
      (updateWindow pcb seqno ackno wnd).unacked = pcb.unacked ∧
      (ThirdDuplicate (updateWindow pcb seqno ackno wnd) ackno → ThirdDuplicate pcb ackno) := by
  rw [updateWindow]
  split_ifs <;> exact ⟨rfl, rfl, rfl, fun h => ⟨h.lastack, h.dupacks, h.infr⟩⟩

theorem Sending.mem_stop {v : SendView} (h : Sending w base x a n v) {s : OutSeg} (hs : s ∈ v.queue) :
    ∃ y, Carries w base y s.seg ∧ a < y + s.seg.tcplen.toNat ∧ y + s.seg.tcplen.toNat ≤ v.stop w := by
  obtain ⟨p, t, hsplit⟩ := List.append_of_mem hs
  have hchain := h.chain
  have htotal := h.total
  have hfirst := h.first
  rw [hsplit] at hchain htotal hfirst
  obtain ⟨-, hcarries, -⟩ := chain_append.mp hchain
  rw [span_append, span_cons] at htotal
  refine ⟨x + span p, hcarries, ?_, by omega⟩
  cases p with
  | nil => simpa using hfirst s rfl
  | cons r p =>
    have hlt := hfirst r rfl
    rw [span_cons]
    omega

theorem tcpRexmit_view {pcb : SendPcb} (h : Sending w base x a n pcb.view) {s : OutSeg} {rest : List OutSeg}
    (hunacked : pcb.unacked = s :: rest) : (tcpRexmit pcb).view = pcb.view.lifted s rest := by
  have hchain : Chain w base x (s :: (rest ++ pcb.unsent)) := by
    rw [← List.cons_append, ← hunacked]
    exact h.chain
  have hspan : span (s :: (rest ++ pcb.unsent)) < 2 ^ 30 := by
    rw [← List.cons_append, ← hunacked]
    exact h.near.1
  have hlater : ∀ t, pcb.unsent.head? = some t → lt t.seg.seqno s.seg.seqno = false := fun t ht =>
    (hchain.later hspan (List.mem_append_right _ (List.mem_of_mem_head? ht))).2
  have hoversize : (if pcb.unsent.all fun cur => lt cur.seg.seqno s.seg.seqno then 0 else pcb.unsentOversize) =
      pcb.unsentOversize := by
    cases hunsent : pcb.unsent with
    | nil => exact (h.oversize_eq_zero hunsent).symm
    | cons t rest =>
      have ht := hlater t (by rw [hunsent]; rfl)
      simp only [List.all_cons, ht, Bool.false_and, Bool.false_eq_true, if_false]
  simp only [tcpRexmit, hunacked, insertSorted_front hlater, hoversize]
  rfl

theorem mss_le_cwnd {ssthresh mss : UInt16} (hmss : mss.toNat ≤ tcpMss) (hle : ssthresh.toNat ≤ 32768) :
    mss ≤ (if ssthresh < 2 * mss then 2 * mss else ssthresh) + 3 * mss := by
  have htwo : (2 : UInt16).toNat = 2 := rfl
  have hthree : (3 : UInt16).toNat = 3 := rfl
  simp only [tcpMss] at hmss
  have hsmall : 3 * mss.toNat < 2 ^ 16 := by omega
  rw [UInt16.le_iff_toNat_le, UInt16.toNat_add, UInt16.toNat_mul, hthree, Nat.mod_eq_of_lt hsmall]
  split_ifs
  · rw [UInt16.toNat_mul, htwo, Nat.mod_eq_of_lt (by omega : 2 * mss.toNat < 2 ^ 16), Nat.mod_eq_of_lt (by omega)]
    omega
  · rw [Nat.mod_eq_of_lt (by omega)]
    omega

theorem half_le (c d : UInt16) : (if c < d then c / 2 else d / 2).toNat ≤ 32768 := by
  have htwo : (2 : UInt16).toNat = 2 := rfl
  have hc := c.toNat_lt
  have hd := d.toNat_lt
  split_ifs <;> rw [UInt16.toNat_div, htwo] <;> omega

structure FastRetransmit (pcb pcb' : SendPcb) (s : OutSeg) (rest : List OutSeg) : Prop where
  unacked : pcb.unacked = s :: rest
  lifted : pcb'.view = pcb.view.lifted s rest
  before : pcb.infr = false
  after : pcb'.infr = true
  mss_le : pcb'.mss ≤ pcb'.cwnd
  sndWnd : pcb'.sndWnd = pcb.sndWnd

theorem tcpRexmit_frame (pcb : SendPcb) : (tcpRexmit pcb).acked = pcb.acked ∧ (tcpRexmit pcb).mss = pcb.mss ∧
    (tcpRexmit pcb).sndWnd = pcb.sndWnd := by
  rw [tcpRexmit]
  cases pcb.unacked <;> exact ⟨rfl, rfl, rfl⟩

theorem tcpRexmitFast_cases {pcb : SendPcb} (h : Sending w base x a n pcb.view) :
    (tcpRexmitFast pcb).acked = pcb.acked ∧
      ((tcpRexmitFast pcb).view = pcb.view ∨ ∃ s rest, FastRetransmit pcb (tcpRexmitFast pcb) s rest) := by
  rw [tcpRexmitFast]
  split_ifs with hcond
  · obtain ⟨hne, hinfr⟩ := hcond
    obtain ⟨s, rest, hunacked⟩ := List.exists_cons_of_ne_nil hne
    obtain ⟨hacked, hmss, hwnd⟩ := tcpRexmit_frame pcb
    refine ⟨hacked, .inr ⟨s, rest, hunacked, tcpRexmit_view h hunacked, by simpa using hinfr, rfl, ?_, hwnd⟩⟩
    exact mss_le_cwnd (by rw [hmss]; exact h.mss) (half_le _ _)
  · exact ⟨rfl, .inl rfl⟩

theorem two_of_counted {d : UInt8} (h : (if d < d + 1 then d + 1 else d) = 3) : d = 2 := by
  split_ifs at h with hlt
  · exact (UInt8.add_left_inj 1).mp h
  · rw [h] at hlt
    exact absurd (by decide) hlt

theorem dupAck_cases {pcb : SendPcb} (h : Sending w base x a n pcb.view) (rightWndEdge ackno : UInt32)
    (tcplen : UInt16) :
    let pcb' := dupAck pcb rightWndEdge ackno tcplen
    pcb'.acked = 0 ∧ (pcb'.view = pcb.view ∨
      tcplen = 0 ∧ ThirdDuplicate pcb ackno ∧ ∃ s rest, FastRetransmit pcb pcb' s rest) := by
  rw [dupAck]
  by_cases hdup : tcplen = 0 ∧ pcb.sndWl2 + pcb.sndWnd.toUInt32 = rightWndEdge ∧ 0 ≤ pcb.rtime ∧ pcb.lastack = ackno
  · rw [if_pos hdup]
    dsimp only
    generalize hcount : (if pcb.dupacks < pcb.dupacks + 1 then pcb.dupacks + 1 else pcb.dupacks) = dupacks
    by_cases hmany : 3 < dupacks
    · rw [if_pos hmany]
      exact ⟨rfl, .inl rfl⟩
    rw [if_neg hmany]
    by_cases hthree : dupacks = 3
    · rw [if_pos hthree]
      have hcounted : Sending w base x a n ({ pcb with acked := 0, dupacks := dupacks } : SendPcb).view := h
      obtain ⟨hacked, hview | ⟨s, rest, hfast⟩⟩ := tcpRexmitFast_cases hcounted
      · exact ⟨hacked, .inl hview⟩
      · exact ⟨hacked, .inr ⟨hdup.1, ⟨hdup.2.2.2, two_of_counted (hcount.trans hthree), hfast.before⟩, s, rest,
          hfast.unacked, hfast.lifted, hfast.before, hfast.after, hfast.mss_le, hfast.sndWnd⟩⟩
    · rw [if_neg hthree]
      exact ⟨rfl, .inl rfl⟩
  · rw [if_neg hdup]
    exact ⟨rfl, .inl rfl⟩

theorem between_idle {pcb : SendPcb} {v : SendView} (h : Sending w base x a n v) (hnxt : pcb.sndNxt = v.sndNxt)
    (hlow : a - 2 ^ 30 ≤ k) (hhigh : k ≤ a + 2 ^ 30) (hold : ¬ (a < k ∧ k ≤ n)) {s : OutSeg} (hs : s ∈ v.queue) :
    between (number base k) (s.seg.seqno + s.seg.tcplen.toUInt32) pcb.sndNxt = false := by
  obtain ⟨y, hcarries, hafter, hend⟩ := h.mem_stop hs
  have hbound := h.span_queue_le
  have ha := h.acked_le
  have hn := h.sent_le
  have hstop : Near k (y + s.seg.tcplen.toNat) := by
    constructor <;> omega
  have hsent : Near k n := by
    constructor <;> omega
  rw [hcarries.stop_number, hnxt, h.sndNxt, between_number hstop hsent, decide_eq_false_iff_not]
  omega

theorem receiveAck_cases {pcb : SendPcb} (h : Sending w base x a n pcb.view) (hlow : a - 2 ^ 30 ≤ k)
    (hhigh : k ≤ a + 2 ^ 30) (seqno : UInt32) (wnd tcplen : UInt16) :
    let pcb' := receiveAck pcb seqno (number base k) wnd tcplen
    pcb'.state = pcb.state ∧ pcb'.fin = pcb.fin ∧
      (a < k ∧ k ≤ n ∧ (∃ x', Sending w base x' k n pcb'.view) ∨
        ¬ (a < k ∧ k ≤ n) ∧ (Sending w base x a n pcb'.view ∨
          ∃ v s rest, Sending w base x a n v ∧ v.unacked = s :: rest ∧ pcb'.view = v.lifted s rest ∧
            ThirdDuplicate pcb (number base k) ∧ pcb.unacked = s :: rest ∧
            pcb'.sndWnd = (updateWindow pcb seqno (number base k) wnd).sndWnd ∧ pcb'.infr = true ∧
            pcb'.mss ≤ pcb'.cwnd ∧ tcplen = 0 ∧ pcb'.acked = 0)) := by
  rw [receiveAck]
  have hwnd := updateWindow_sending h seqno (number base k) wnd
  obtain ⟨hstate, hfin, hunacked, hthird⟩ := updateWindow_frame pcb seqno (number base k) wnd
  dsimp only
  generalize updateWindow pcb seqno (number base k) wnd = pcb₁ at hwnd hstate hfin hunacked hthird
  rw [← hstate, ← hfin, ← hunacked]
  have ha := hwnd.acked_le
  have hbound := hwnd.span_queue_le
  have hn := hwnd.sent_le
  have hlast : pcb₁.lastack = number base a := hwnd.lastack
  have hnxt : pcb₁.sndNxt = number base n := hwnd.sndNxt
  have hka : Near k a := by
    constructor <;> omega
  have hka' : Near k (a + 1) := by
    constructor <;> omega
  have hkn : Near k n := by
    constructor <;> omega
  have hmem : ∀ s, pcb₁.unsent.head? = some s → s ∈ pcb₁.view.queue := fun s hs =>
    List.mem_append_right _ (List.mem_of_mem_head? hs)
  have hleq : leq (number base k) pcb₁.lastack = decide (k ≤ a) := by rw [hlast, leq_number hka]
  have hbetween : between (number base k) (pcb₁.lastack + 1) pcb₁.sndNxt = decide (a + 1 ≤ k ∧ k ≤ n) := by
    rw [hlast, number_add_one, hnxt, between_number hka' hkn]
  by_cases hold : k ≤ a
  · rw [hleq, if_pos (decide_eq_true hold)]
    have hnot : ¬ (a < k ∧ k ≤ n) := by omega
    obtain ⟨hacked, hsame | ⟨hlen, hdup, s, rest, hfast⟩⟩ :=
      dupAck_cases hwnd (pcb.sndWnd.toUInt32 + pcb.sndWl2) (number base k) tcplen
    · generalize dupAck pcb₁ (pcb.sndWnd.toUInt32 + pcb.sndWl2) (number base k) tcplen = pcb₂ at hsame
      have hidle : freeUnsent (number base k) pcb₂ pcb₂.unsent = pcb₂ := by
        apply freeUnsent_idle
        intro s hs
        have hunsent : pcb₂.unsent = pcb₁.unsent := congrArg SendView.unsent hsame
        rw [hunsent] at hs
        exact between_idle hwnd (congrArg SendView.sndNxt hsame) hlow hhigh hnot (hmem s hs)
      rw [hidle]
      refine ⟨congrArg SendView.state hsame, congrArg SendView.fin hsame, .inr ⟨hnot, .inl ?_⟩⟩
      rw [hsame]
      exact hwnd
    · generalize dupAck pcb₁ (pcb.sndWnd.toUInt32 + pcb.sndWl2) (number base k) tcplen = pcb₂ at hacked hfast
      have hidle : freeUnsent (number base k) pcb₂ pcb₂.unsent = pcb₂ := by
        apply freeUnsent_idle
        intro u hu
        have hunsent : pcb₂.unsent = s :: pcb₁.unsent := congrArg SendView.unsent hfast.lifted
        rw [hunsent] at hu
        obtain rfl : s = u := Option.some_inj.mp hu
        refine between_idle hwnd (congrArg SendView.sndNxt hfast.lifted) hlow hhigh hnot ?_
        refine List.mem_append_left _ ?_
        change s ∈ pcb₁.unacked
        rw [hfast.unacked]
        exact List.mem_cons_self
      rw [hidle]
      exact ⟨congrArg SendView.state hfast.lifted, congrArg SendView.fin hfast.lifted, .inr ⟨hnot, .inr
        ⟨pcb₁.view, s, rest, hwnd, hfast.unacked, hfast.lifted, hthird hdup, hfast.unacked, hfast.sndWnd, hfast.after,
          hfast.mss_le, hlen, hacked⟩⟩⟩
  · rw [hleq, if_neg (by simpa using hold), hbetween]
    by_cases hnew : a + 1 ≤ k ∧ k ≤ n
    · rw [if_pos (decide_eq_true hnew)]
      obtain ⟨hstate', hfin', x', hx'⟩ := newAck_sending hwnd (by omega : a < k) hnew.2
      exact ⟨hstate', hfin', .inl ⟨by omega, hnew.2, x', hx'⟩⟩
    · rw [if_neg (by simpa using hnew)]
      have hnot : ¬ (a < k ∧ k ≤ n) := by omega
      have hidle : freeUnsent (number base k) { pcb₁ with acked := 0 } pcb₁.unsent = { pcb₁ with acked := 0 } :=
        freeUnsent_idle fun s hs => between_idle hwnd rfl hlow hhigh hnot (hmem s hs)
      rw [hidle]
      exact ⟨rfl, rfl, .inr ⟨hnot, .inl hwnd⟩⟩

end LogoCore.Lwip
