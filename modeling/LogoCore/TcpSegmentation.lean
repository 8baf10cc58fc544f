import LogoCore.TcpAcknowledgement

namespace LogoCore.Lwip

open Ethernet SequenceNumbers

variable {w data : List UInt8} {base : UInt32} {pcb : SendPcb} {mssLocal : ℕ} {more : Bool}

theorem preallocRoom_le {length maxLength : ℕ} (h : length ≤ maxLength) (pcb : SendPcb) (more first : Bool) :
    length + preallocRoom pcb length maxLength more first ≤ maxLength := by
  rw [preallocRoom]
  split_ifs <;> omega

/-- A segment of data as `tcp_write` makes it. -/
structure Fresh (mssLocal : ℕ) (s : OutSeg) : Prop where
  clen : s.clen = 1
  syn : s.seg.syn = false
  pos : 0 < s.seg.p.length
  room : s.seg.p.length + s.room ≤ mssLocal

theorem newSegments_nonempty {quota mem pos : ℕ} {first : Bool} (hne : data ≠ []) :
    newSegments pcb 0 more quota mem pos first data = none := by
  induction quota generalizing mem pos first with
  | zero =>
    cases data with
    | nil => exact absurd rfl hne
    | cons b data => rfl
  | succ quota ih =>
    cases data with
    | nil => exact absurd rfl hne
    | cons b data =>
      simp only [newSegments, Nat.min_zero, List.drop_zero, ih, Option.map_none, ite_self]

theorem newSegments_spec {quota mem pos : ℕ} {first : Bool} {queue : List OutSeg} {l : ℕ}
    (hmss : mssLocal ≤ tcpMss) (hlbb : pcb.sndLbb = number base l) (hdata : w.drop (l + pos) = data)
    (h : newSegments pcb mssLocal more quota mem pos first data = some queue) :
    Chain w base ((l + pos : ℕ) : ℤ) queue ∧ span queue = data.length ∧ queue.length ≤ quota ∧
      ∀ s ∈ queue, Fresh mssLocal s := by
  induction quota generalizing mem pos first data queue with
  | zero =>
    cases data with
    | nil =>
      obtain rfl : [] = queue := Option.some_inj.mp h
      exact ⟨trivial, rfl, le_rfl, fun s hs => absurd hs List.not_mem_nil⟩
    | cons b data => cases h
  | succ quota ih =>
    cases data with
    | nil =>
      obtain rfl : [] = queue := Option.some_inj.mp h
      exact ⟨trivial, rfl, Nat.zero_le _, fun s hs => absurd hs List.not_mem_nil⟩
    | cons b data =>
      obtain rfl | hpos := Nat.eq_zero_or_pos mssLocal
      · rw [newSegments_nonempty (List.cons_ne_nil b data)] at h
        cases h
      rw [newSegments] at h
      generalize hseglen : min (data.length + 1) mssLocal = seglen at h
      by_cases hmem : mem < 2
      · rw [if_pos hmem] at h
        cases h
      rw [if_neg hmem, Option.map_eq_some_iff] at h
      obtain ⟨rest, hrest, rfl⟩ := h
      have hdrop : w.drop (l + (pos + seglen)) = (b :: data).drop seglen := by
        rw [← hdata, List.drop_drop, Nat.add_assoc]
      obtain ⟨hchain, hspan, hlength, hfresh⟩ := ih hdrop hrest
      simp only [tcpMss] at hmss
      have hle : seglen ≤ (b :: data).length := by
        rw [List.length_cons]
        omega
      have htake : ((b :: data).take seglen).length = seglen := List.length_take_of_le hle
      have hlen : (UInt16.ofNat seglen).toNat = seglen := UInt16.toNat_ofNat_of_lt' (by
        change seglen < 65536
        omega)
      have hgenuine : Genuine w base (l + pos) ⟨pcb.sndLbb + UInt32.ofNat pos, false, false, UInt16.ofNat seglen,
          (b :: data).take seglen⟩ := by
        refine ⟨?_, ?_, ?_, ?_, fun hf => absurd hf Bool.false_ne_true, rfl⟩
        · rw [hlbb, number_add_ofNat, Nat.cast_add]
        · rw [hlen, htake]
        · rw [htake]
          omega
        · rw [hdata]
          exact List.take_prefix _ _
      have htcplen := hgenuine.tcplen
      rw [htake, Bool.toNat_false, Nat.add_zero] at htcplen
      refine ⟨⟨.inr ⟨Int.natCast_nonneg _, hgenuine, .inl ?_⟩, ?_⟩, ?_, ?_, ?_⟩
      · rw [htake]
        omega
      · rw [htcplen, ← Nat.cast_add, Nat.add_assoc]
        exact hchain
      · rw [span_cons, hspan, htcplen, List.length_drop]
        omega
      · rw [List.length_cons]
        omega
      · intro s hs
        obtain rfl | hs := List.mem_cons.mp hs
        · refine ⟨rfl, rfl, ?_, ?_⟩
          · rw [htake]
            omega
          · rw [htake]
            exact preallocRoom_le (by omega) _ _ _
        · exact hfresh s hs

/-- What phases 1 and 2 of `tcp_write` may do to the last unsent segment. -/
structure Filling (mssLocal : ℕ) (last : OutSeg) (data : List UInt8) (f : Filled) : Prop where
  pos_le : f.pos ≤ data.length
  seg : f.last.seg = { last.seg with len := last.seg.len + UInt16.ofNat f.pos, p := last.seg.p ++ data.take f.pos }
  clen : f.last.clen = last.clen + UInt16.ofNat f.chained
  chained : f.chained = 0 ∨ f.chained = 1 ∧ 0 < f.pos
  carried : 0 < f.pos → 0 < last.seg.p.length
  fits : last.seg.p.length + f.pos ≤ mssLocal
  room : f.oversize ≤ f.last.room
  spare : 0 < f.oversize → 0 < last.seg.p.length ∧ last.seg.p.length + f.pos + f.oversize ≤ mssLocal

theorem extend_seg (s : OutSeg) (data : List UInt8) (pbufs : UInt16) (room : ℕ) :
    (s.extend data pbufs room).seg =
      { s.seg with len := s.seg.len + UInt16.ofNat data.length, p := s.seg.p ++ data } := rfl

theorem fillLast_spec {last : OutSeg} {mem : ℕ} {f : Filled} (hmss : mssLocal ≤ tcpMss)
    (hlen : last.seg.len.toNat = last.seg.p.length) (hsyn : last.seg.syn = true → last.seg.p.length = 0)
    (hshort : last.seg.p.length ≤ mssLocal)
    (hspare : pcb.unsentOversize ≠ 0 → 0 < last.seg.p.length ∧ pcb.unsentOversize.toNat ≤ last.room ∧
      last.seg.p.length + pcb.unsentOversize.toNat ≤ mssLocal)
    (h : fillLast pcb mssLocal last data more mem = some f) : Filling mssLocal last data f := by
  have hoversize : 0 < pcb.unsentOversize.toNat → 0 < last.seg.p.length ∧ pcb.unsentOversize.toNat ≤ last.room ∧
      last.seg.p.length + pcb.unsentOversize.toNat ≤ mssLocal := by
    intro hpos
    apply hspare
    rintro hzero
    rw [hzero] at hpos
    exact absurd hpos (Nat.lt_irrefl 0)
  rw [fillLast] at h
  generalize hused : min pcb.unsentOversize.toNat data.length = used at h
  simp only [tcpMss] at hmss
  have htake : (data.take used).length = used := List.length_take_of_le (by omega)
  dsimp only at h
  generalize hspace : (UInt16.ofNat mssLocal - (last.seg.len + if last.seg.syn then 4 else 0) -
    UInt16.ofNat used).toNat = space at h
  by_cases hmore : used < data.length ∧ 0 < space ∧ 0 < last.seg.len
  · rw [if_pos hmore] at h
    by_cases hmem : mem = 0
    · rw [if_pos hmem] at h
      cases h
    rw [if_neg hmem] at h
    obtain rfl := Option.some_inj.mp h
    have hpos : 0 < last.seg.p.length := by
      have hlt := UInt16.lt_iff_toNat_lt.mp hmore.2.2
      rw [hlen] at hlt
      exact hlt
    have hnosyn : last.seg.syn = false := by
      rw [← Bool.not_eq_true]
      intro hs
      exact absurd (hsyn hs) hpos.ne'
    have hfit : last.seg.p.length + used ≤ mssLocal := by
      by_cases hzero : 0 < pcb.unsentOversize.toNat
      · have hfit := hoversize hzero
        omega
      · omega
    have hspace' : space = mssLocal - last.seg.p.length - used := by
      rw [← hspace, hnosyn, if_neg Bool.false_ne_true, UInt16.add_zero, UInt16.toNat_sub, UInt16.toNat_sub,
        UInt16.toNat_ofNat', UInt16.toNat_ofNat', hlen]
      omega
    generalize hseglen : min space (data.length - used) = seglen
    have hseg : ((data.drop used).take seglen).length = seglen := by
      rw [List.length_take_of_le]
      rw [List.length_drop]
      omega
    refine ⟨?_, ?_, ?_, .inr ⟨rfl, ?_⟩, fun _ => hpos, ?_, le_rfl, fun _ => ⟨hpos, ?_⟩⟩
    · dsimp only
      omega
    · dsimp only
      rw [extend_seg, extend_seg, htake, hseg, List.take_add, UInt16.ofNat_add, List.append_assoc, UInt16.add_assoc]
    · dsimp only [OutSeg.extend]
      rw [UInt16.add_zero]
      rfl
    · dsimp only
      omega
    · dsimp only
      omega
    · have hle := preallocRoom_le (by omega : seglen ≤ space) pcb more true
      dsimp only
      omega
  · rw [if_neg hmore] at h
    obtain rfl := Option.some_inj.mp h
    refine ⟨?_, ?_, ?_, .inl rfl, ?_, ?_, ?_, ?_⟩
    · dsimp only
      omega
    · rw [extend_seg, htake]
    · exact (UInt16.add_zero _).trans (UInt16.add_zero _).symm
    · intro hpos
      exact (hoversize (by dsimp only at hpos; omega)).1
    · dsimp only
      by_cases hzero : 0 < pcb.unsentOversize.toNat
      · have hfit := hoversize hzero
        omega
      · omega
    · dsimp only [OutSeg.extend]
      by_cases hzero : 0 < pcb.unsentOversize.toNat
      · have hfit := hoversize hzero
        omega
      · omega
    · intro hpos
      dsimp only at hpos ⊢
      have hfit := hoversize (by omega)
      omega

variable {x a n : ℤ} {v : SendView}

/-- The unsent queue that `tcp_write` has prepared continues the stream by `data`. -/
structure Continued (w data : List UInt8) (base : UInt32) (x : ℤ) (v : SendView) (q : Segmented) : Prop where
  chain : Chain (w ++ data) base x (v.unacked ++ q.unsent)
  total : span (v.unacked ++ q.unsent) = span v.queue + data.length
  counted : pbufs (v.unacked ++ q.unsent) = pbufs v.queue + q.added
  added : q.added ≤ tcpSndQueuelen - v.sndQueuelen.toNat
  first : ∀ s, (v.unacked ++ q.unsent).head? = some s →
    v.queue = [] ∨ ∃ s₀, v.queue.head? = some s₀ ∧ s₀.seg.tcplen.toNat ≤ s.seg.tcplen.toNat
  syn : ∀ s ∈ q.unsent, s.seg.syn = true → s.clen = 1
  short : ∀ s ∈ q.unsent, s.seg.p.length ≤ v.mssLocal
  spare : 0 < q.oversize → ∃ s, q.unsent.getLast? = some s ∧ 0 < s.seg.p.length ∧ q.oversize ≤ s.room ∧
    s.seg.p.length + q.oversize ≤ v.mssLocal

theorem Sending.write (h : Sending w base x a n v) (hfin : v.fin = false) (hbuf : data.length ≤ v.sndBuf.toNat)
    {q : Segmented} (hq : Continued w data base x v q) :
    Sending (w ++ data) base x a n { v with
      unsent := q.unsent, unsentOversize := UInt16.ofNat q.oversize, sndLbb := v.sndLbb + UInt32.ofNat data.length,
      sndBuf := v.sndBuf - UInt16.ofNat data.length, sndQueuelen := v.sndQueuelen + UInt16.ofNat q.added } := by
  have htotal := h.total
  have hn := h.sent_le
  have ha := h.acked_le
  have hstart := h.start_le
  have hcount := h.counted_le
  have hmss := h.mss
  simp only [SendView.stop, hfin, Bool.toNat_false, Nat.cast_zero, add_zero] at htotal hn
  have hqueuelen : (v.sndQueuelen + UInt16.ofNat q.added).toNat = v.sndQueuelen.toNat + q.added := by
    have hadded := hq.added
    simp only [tcpSndQueuelen, tcpSndBuf, tcpMss] at hadded hcount
    rw [UInt16.toNat_add, UInt16.toNat_ofNat']
    omega
  have hlarge : v.mssLocal ≤ 1500 := by
    simp only [SendView.mssLocal, tcpMss] at hmss ⊢
    omega
  refine
    { chain := hq.chain
      total := ?_
      first := ?_
      start_le := h.start_le
      acked_le := h.acked_le
      unacked_le := h.unacked_le
      sent_le := ?_
      lastack := h.lastack
      sndNxt := h.sndNxt
      buffer := ?_
      counted := ?_
      counted_le := ?_
      syn := ?_
      mss := h.mss
      short := ?_
      spare := ?_ }
  · change x + span (v.unacked ++ q.unsent) = _
    rw [hq.total]
    simp only [SendView.stop, hfin, Bool.toNat_false, List.length_append]
    omega
  · intro s hs
    obtain hnil | ⟨s₀, hs₀, hle⟩ := hq.first s hs
    · have hpos : 0 < s.seg.tcplen.toNat := by
        obtain ⟨y, hcarries, -⟩ := hq.chain.mem (List.mem_of_mem_head? hs)
        exact hcarries.tcplen_pos
      rw [hnil, span_nil] at htotal
      omega
    · have hlt := h.first s₀ hs₀
      omega
  · simp only [SendView.stop, hfin, Bool.toNat_false, List.length_append]
    omega
  · obtain ⟨l, hl, hlow, hhigh, hroom⟩ := h.buffer
    refine ⟨l + data.length, ?_, ?_, ?_, ?_⟩
    · change v.sndLbb + UInt32.ofNat data.length = _
      rw [hl, number_add_ofNat]
    · rw [List.length_append]
      omega
    · simp only [SendView.stop, hfin, Bool.toNat_false, List.length_append] at hhigh ⊢
      omega
    · have hlt := v.sndBuf.toNat_lt
      change ((v.sndBuf - UInt16.ofNat data.length).toNat : ℤ) = _
      rw [UInt16.toNat_sub, UInt16.toNat_ofNat']
      omega
  · change (v.sndQueuelen + UInt16.ofNat q.added).toNat = pbufs (v.unacked ++ q.unsent)
    rw [hqueuelen, hq.counted, h.counted]
  · change (v.sndQueuelen + UInt16.ofNat q.added).toNat ≤ _
    have hadded := hq.added
    omega
  · intro s hs
    obtain hs | hs := List.mem_append.mp hs
    · exact h.syn s (List.mem_append_left _ hs)
    · exact hq.syn s hs
  · intro s hs
    obtain hs | hs := List.mem_append.mp hs
    · exact h.short s (List.mem_append_left _ hs)
    · exact hq.short s hs
  · intro hne
    have hpos : 0 < q.oversize := by
      rw [Nat.pos_iff_ne_zero]
      rintro hzero
      rw [hzero] at hne
      exact hne rfl
    obtain ⟨s, hlast, hdata, hroom, hfit⟩ := hq.spare hpos
    have htoNat : (UInt16.ofNat q.oversize).toNat = q.oversize := UInt16.toNat_ofNat_of_lt' (by
      change q.oversize < 65536
      omega)
    refine ⟨s, hlast, hdata, ?_, ?_⟩
    · dsimp only
      rw [htoNat]
      exact hroom
    · dsimp only
      rw [htoNat]
      exact hfit

theorem Carries.fill {last : OutSeg} {f : Filled} (h : Carries w base x last.seg)
    (hend : x + last.seg.tcplen.toNat = w.length) (hmss : mssLocal ≤ tcpMss) (hf : Filling mssLocal last data f) :
    Carries (w ++ data) base x f.last.seg := by
  obtain hzero | hpos := Nat.eq_zero_or_pos f.pos
  · have hseg : f.last.seg = last.seg := by
      rw [hf.seg, hzero, List.take_zero, List.append_nil, show UInt16.ofNat 0 = 0 from rfl, UInt16.add_zero]
    rw [hseg]
    exact h.grow hend.le data
  have hfin := h.fin_eq_false hend.le
  have hdata := hf.carried hpos
  have hfits := hf.fits
  have hle := hf.pos_le
  have hlen := h.len
  obtain ⟨-, hsyn⟩ | ⟨hx, hg, -⟩ := h
  · rw [hsyn] at hdata
    cases hdata
  rw [hg.tcplen, hfin, Bool.toNat_false] at hend
  simp only [tcpMss] at hmss
  have hlength : (last.seg.p ++ data.take f.pos).length = last.seg.p.length + f.pos := by
    rw [List.length_append, List.length_take_of_le hle]
  have hall : w.drop x.toNat = last.seg.p := by
    have hbegin := List.prefix_iff_eq_take.mp hg.bytes
    rw [List.take_of_length_le] at hbegin
    · exact hbegin.symm
    · rw [List.length_drop]
      omega
  rw [hf.seg]
  refine .inr ⟨hx, ⟨hg.seqno, ?_, ?_, ?_, ?_, hg.syn⟩, .inl ?_⟩
  · dsimp only
    rw [hlength, UInt16.toNat_add, UInt16.toNat_ofNat']
    omega
  · dsimp only
    omega
  · rw [List.drop_append_of_le_length (by omega), hall]
    exact List.prefix_append_right_inj _ |>.mpr (List.take_prefix _ _)
  · intro hf'
    exact absurd (hfin.symm.trans hf') Bool.false_ne_true
  · dsimp only
    omega

theorem pbufs_fresh {q : List OutSeg} (h : ∀ s ∈ q, Fresh mssLocal s) : pbufs q = q.length := by
  induction q with
  | nil => rfl
  | cons s q ih =>
    have hs := h s List.mem_cons_self
    rw [pbufs_cons, hs.clen, ih fun s hs => h s (List.mem_cons_of_mem _ hs), List.length_cons]
    exact Nat.add_comm _ _

theorem spare_fresh {q : List OutSeg} (h : ∀ s ∈ q, Fresh mssLocal s) (hne : q ≠ []) (d : ℕ) :
    ∃ s, q.getLast? = some s ∧ 0 < s.seg.p.length ∧ (q.getLast?.map OutSeg.room).getD d = s.room ∧
      s.seg.p.length + s.room ≤ mssLocal := by
  have hlast := List.getLast?_eq_some_getLast hne
  have hfresh := h _ (List.getLast_mem hne)
  exact ⟨_, hlast, hfresh.pos, by rw [hlast]; rfl, hfresh.room⟩

theorem segmentation_continued {mem : ℕ} {q : Segmented} (h : Sending w base x a n pcb.view) (hfin : pcb.fin = false)
    (hquota : data = [] ∨ pcb.sndQueuelen.toNat < tcpSndQueuelen)
    (hseg : segmentation pcb data more mem = some q) : Continued w data base x pcb.view q := by
  obtain ⟨l, hl, hlow, hhigh, -⟩ := h.buffer
  have hchain : Chain w base x (pcb.unacked ++ pcb.unsent) := h.chain
  have htotal : x + span (pcb.unacked ++ pcb.unsent) = w.length + pcb.fin.toNat := h.total
  have hfin' : pcb.view.fin = false := hfin
  rw [hfin, Bool.toNat_false, Nat.cast_zero, add_zero] at htotal
  rw [SendView.stop, hfin', Bool.toNat_false, Nat.cast_zero, add_zero] at hhigh
  have hlbb : pcb.sndLbb = number base (w.length : ℕ) := hl.trans (congrArg _ (by omega))
  have hmss : pcb.view.mssLocal ≤ tcpMss := (min_le_left _ _).trans h.mss
  rw [segmentation] at hseg
  cases hlast : pcb.unsent.getLast? with
  | none =>
    simp only [hlast, Option.map_eq_some_iff] at hseg
    obtain ⟨queue, hnew, rfl⟩ := hseg
    have hunsent := List.getLast?_eq_none_iff.mp hlast
    have hqueue : pcb.view.queue = pcb.unacked := (congrArg (pcb.unacked ++ ·) hunsent).trans (List.append_nil _)
    rw [hunsent, List.append_nil] at hchain htotal
    obtain ⟨hcont, hspan, hlength, hfresh⟩ :=
      newSegments_spec hmss hlbb (by simp : (w ++ data).drop (w.length + 0) = data) hnew
    refine ⟨chain_append.mpr ⟨hchain.grow htotal.le data, ?_⟩, ?_, ?_, hlength, ?_, ?_, ?_, ?_⟩
    · change Chain _ _ (x + span pcb.unacked) _
      rw [htotal]
      exact hcont
    · rw [hqueue, span_append, hspan]
      rfl
    · rw [hqueue, pbufs_append, pbufs_fresh hfresh]
      rfl
    · intro s hs
      rw [hqueue]
      cases hunacked : pcb.unacked with
      | nil => exact .inl rfl
      | cons s₀ rest =>
        have hs : (pcb.unacked ++ queue).head? = some s := hs
        rw [hunacked] at hs
        exact .inr ⟨s, hs, le_rfl⟩
    · intro s hs hsyn
      rw [(hfresh s hs).syn] at hsyn
      cases hsyn
    · intro s hs
      exact (Nat.le_add_right _ _).trans (hfresh s hs).room
    · intro hpos
      have hne : queue ≠ [] := by
        rintro rfl
        exact absurd hpos (Nat.lt_irrefl 0)
      obtain ⟨s, hs, hdata, hroom, hfit⟩ := spare_fresh hfresh hne 0
      refine ⟨s, hs, hdata, hroom.le, ?_⟩
      dsimp only
      rw [hroom]
      exact hfit
  | some last =>
    simp only [hlast, Option.bind_eq_some_iff, Option.map_eq_some_iff] at hseg
    obtain ⟨f, hf, queue, hnew, rfl⟩ := hseg
    obtain ⟨init, hunsent⟩ := List.getLast?_eq_some_iff.mp hlast
    have hqueue : pcb.view.queue = pcb.unacked ++ init ++ [last] := by
      rw [List.append_assoc, ← hunsent]
      rfl
    rw [hunsent, ← List.append_assoc] at hchain htotal
    rw [hunsent, List.dropLast_concat]
    obtain ⟨hinit, hcarries, -⟩ := chain_append.mp hchain
    rw [span_append, span_cons, span_nil] at htotal
    have hmem : last ∈ pcb.view.queue := by
      rw [hqueue]
      exact List.mem_append_right _ List.mem_cons_self
    have hfill : Filling pcb.view.mssLocal last data f := by
      refine fillLast_spec hmss hcarries.len hcarries.length_of_syn (h.short last hmem) ?_ hf
      intro hne
      obtain ⟨s, hs, hspare⟩ := h.spare hne
      obtain rfl : last = s := Option.some_inj.mp (hlast.symm.trans hs)
      exact hspare
    have hfilled := hcarries.fill (by omega) hmss hfill
    have htcplen : f.last.seg.tcplen.toNat = last.seg.tcplen.toNat + f.pos := by
      rw [hfilled.tcplen, hcarries.tcplen, hfill.seg]
      dsimp only
      rw [List.length_append, List.length_take_of_le hfill.pos_le]
      omega
    have hdrop : (w ++ data).drop (w.length + f.pos) = data.drop f.pos := by
      rw [← List.drop_drop, List.drop_left]
    obtain ⟨hcont, hspan, hlength, hfresh⟩ := newSegments_spec hmss hlbb hdrop hnew
    rw [List.length_drop] at hspan
    have hpos := hfill.pos_le
    have hchained : f.chained ≤ 1 := by
      obtain hzero | hone := hfill.chained <;> omega
    have hclen : f.last.clen.toNat = last.clen.toNat + f.chained := by
      have hcounted := h.counted
      have hle := h.counted_le
      rw [hqueue, pbufs_append, pbufs_cons] at hcounted
      simp only [tcpSndQueuelen, tcpSndBuf, tcpMss] at hle
      rw [hfill.clen, UInt16.toNat_add, UInt16.toNat_ofNat']
      omega
    have hassoc : pcb.view.unacked ++ (init ++ f.last :: queue) = pcb.unacked ++ init ++ f.last :: queue :=
      (List.append_assoc _ _ _).symm
    refine ⟨?_, ?_, ?_, ?_, ?_, ?_, ?_, ?_⟩
    · rw [hassoc]
      refine chain_append.mpr ⟨hinit.grow (by omega) data, hfilled, ?_⟩
      have hat : x + span (pcb.unacked ++ init) + f.last.seg.tcplen.toNat = ((w.length + f.pos : ℕ) : ℤ) := by omega
      rw [hat]
      exact hcont
    · rw [hassoc, hqueue]
      simp only [span_append, span_cons, span_nil]
      omega
    · rw [hassoc, hqueue]
      simp only [pbufs_append, pbufs_cons, pbufs_fresh hfresh, hclen, show pbufs [] = 0 from rfl]
      omega
    · have hsent : pcb.view.sndQueuelen.toNat = pcb.sndQueuelen.toNat := rfl
      dsimp only
      rw [hsent]
      obtain hzero | ⟨hone, hsome⟩ := hfill.chained
      · omega
      · have hne : data ≠ [] := by
          rintro rfl
          exact absurd hpos (Nat.not_le.mpr hsome)
        have hlt := hquota.resolve_left hne
        omega
    · intro s hs
      rw [hassoc] at hs
      rw [hqueue]
      refine .inr ?_
      cases hfront : pcb.unacked ++ init with
      | nil =>
        rw [hfront] at hs
        obtain rfl : f.last = s := Option.some_inj.mp hs
        exact ⟨last, rfl, by omega⟩
      | cons s₀ rest =>
        rw [hfront] at hs
        exact ⟨s, hs, le_rfl⟩
    · intro s hs hsyn
      obtain hs | hs := List.mem_append.mp hs
      · refine h.syn s ?_ hsyn
        rw [hqueue]
        exact List.mem_append_left _ (List.mem_append_right _ hs)
      obtain rfl | hs := List.mem_cons.mp hs
      · rw [hfill.seg] at hsyn
        have hlength := hcarries.length_of_syn hsyn
        have hzero : f.chained = 0 := by
          obtain hzero | ⟨-, hsome⟩ := hfill.chained
          · exact hzero
          · exact absurd (hfill.carried hsome) (by omega)
        rw [hfill.clen, hzero, h.syn last hmem hsyn]
        rfl
      · rw [(hfresh s hs).syn] at hsyn
        cases hsyn
    · intro s hs
      obtain hs | hs := List.mem_append.mp hs
      · apply h.short s
        rw [hqueue]
        exact List.mem_append_left _ (List.mem_append_right _ hs)
      obtain rfl | hs := List.mem_cons.mp hs
      · rw [hfill.seg]
        dsimp only
        rw [List.length_append, List.length_take_of_le hpos]
        exact hfill.fits
      · exact (Nat.le_add_right _ _).trans (hfresh s hs).room
    · intro hover
      dsimp only at hover ⊢
      obtain rfl | hne := eq_or_ne queue []
      · obtain ⟨hdata, hfit⟩ := hfill.spare hover
        refine ⟨f.last, List.getLast?_concat, ?_, hfill.room, ?_⟩
        · rw [hfill.seg]
          dsimp only
          rw [List.length_append]
          omega
        · rw [hfill.seg]
          dsimp only
          rw [List.length_append, List.length_take_of_le hpos]
          exact hfit
      · obtain ⟨s, hs, hdata, hroom, hfit⟩ := spare_fresh hfresh hne f.oversize
        refine ⟨s, ?_, hdata, hroom.le, ?_⟩
        · rw [List.getLast?_append_of_ne_nil _ (List.cons_ne_nil _ _), List.getLast?_cons, hs]
          rfl
        · rw [hroom]
          exact hfit

theorem tcpWriteChecks_cases (pcb : SendPcb) (len : ℕ) :
    (tcpWriteChecks pcb len = (.ok, pcb) ∧ Writable pcb.state ∧ len ≤ pcb.sndBuf.toNat ∧
      (len = 0 ∨ pcb.sndQueuelen.toNat < tcpSndQueuelen)) ∨
    (tcpWriteChecks pcb len).1 ≠ .ok ∧ (tcpWriteChecks pcb len).2.view = pcb.view := by
  rw [tcpWriteChecks]
  by_cases hstate : Writable pcb.state
  · rw [if_neg (not_not.mpr hstate)]
    split_ifs with hlen hroom
    · exact .inl ⟨rfl, hstate, by omega, .inl hlen⟩
    · exact .inr ⟨by simp, rfl⟩
    · exact .inl ⟨rfl, hstate, by omega, .inr (by omega)⟩
  · rw [if_pos hstate]
    exact .inr ⟨by simp, rfl⟩

theorem tcpWrite_sending (h : Sending w base x a n pcb.view) (hclosed : pcb.fin = true → ¬ Writable pcb.state)
    (data : List UInt8) (more : Bool) (mem : ℕ) :
    ((tcpWrite pcb data more mem).1 = .ok ∧ Sending (w ++ data) base x a n (tcpWrite pcb data more mem).2.view ∧
      pcb.fin = false ∧ (tcpWrite pcb data more mem).2.state = pcb.state ∧
      (tcpWrite pcb data more mem).2.fin = pcb.fin ∧ (tcpWrite pcb data more mem).2.sndWndMax = pcb.sndWndMax) ∨
    (tcpWrite pcb data more mem).1 ≠ .ok ∧ (tcpWrite pcb data more mem).2.view = pcb.view := by
  obtain ⟨hcheck, hstate, hbuf, hquota⟩ | ⟨hrefused, hview⟩ := tcpWriteChecks_cases pcb data.length
  · rw [tcpWrite, hcheck]
    dsimp only
    have hfin : pcb.fin = false := by
      rw [← Bool.not_eq_true]
      intro hfin
      exact hclosed hfin hstate
    cases hseg : segmentation pcb data more mem with
    | none => exact .inr ⟨by simp, rfl⟩
    | some q =>
      have hcont := segmentation_continued h hfin (hquota.imp_left List.length_eq_zero_iff.mp) hseg
      exact .inl ⟨rfl, h.write hfin hbuf hcont, hfin, rfl, rfl, rfl⟩
  · have hwrite : tcpWrite pcb data more mem = tcpWriteChecks pcb data.length := by
      rw [tcpWrite]
      generalize tcpWriteChecks pcb data.length = r at hrefused
      obtain ⟨err, pcb'⟩ := r
      cases err <;> first | rfl | exact absurd rfl hrefused
    rw [hwrite]
    exact .inr ⟨hrefused, hview⟩

end LogoCore.Lwip
