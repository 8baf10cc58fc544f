import LogoCore.TcpSegments

namespace LogoCore.Lwip

open Ethernet SequenceNumbers

variable {s : List UInt8} {base : UInt32}

section Insertion

variable {hi lo a : ℕ} {cseg : TcpSeg} {q : List TcpSeg}

theorem geq_ends {b : ℕ} {next : TcpSeg} (hg : Genuine s base a cseg) (hn : Genuine s base b next)
    (hnear : Near (a + cseg.p.length : ℕ) (b + next.p.length : ℕ)) :
    geq (cseg.seqno + cseg.len.toUInt32) (next.seqno + next.len.toUInt32) =
      decide (b + next.p.length ≤ a + cseg.p.length) := by
  rw [hg.seqno_add_len, hn.seqno_add_len, geq_number hnear]
  simp only [Nat.cast_le]

theorem gt_end_seqno {b : ℕ} {next : TcpSeg} (hg : Genuine s base a cseg) (hn : Genuine s base b next)
    (hnear : Near (a + cseg.p.length : ℕ) b) :
    gt (cseg.seqno + cseg.len.toUInt32) next.seqno = decide (b < a + cseg.p.length) := by
  rw [hg.seqno_add_len, hn.seqno, gt_number hnear]
  simp only [Nat.cast_lt]

theorem oosCovered_spec (hg : Genuine s base a cseg) (hpos : 0 < cseg.p.length) (hfin : cseg.fin = false)
    (hend : a + cseg.p.length ≤ hi) (hq : Queued s base hi lo q) (hlo : a < lo) (hspan : hi < a + 2 ^ 30) :
    ∃ fin, (oosCovered cseg.seqno cseg q).1 = { cseg with fin := fin } ∧
      Genuine s base a { cseg with fin := fin } ∧
      (fin = true → (oosCovered cseg.seqno cseg q).2 = []) ∧
      Queued s base hi lo (oosCovered cseg.seqno cseg q).2 := by
  induction q generalizing lo with
  | nil =>
    refine ⟨false, ?_, hg.withoutFin, fun hf => absurd hf Bool.false_ne_true, trivial⟩
    rw [oosCovered, ← hfin]
  | cons next rest ih =>
    have hqueue := hq
    obtain ⟨b, hb, hbhi, hn, hne, hlast, hrest⟩ := hq
    have hnear : Near (a + cseg.p.length : ℕ) (b + next.p.length : ℕ) := by
      unfold Near
      omega
    rw [oosCovered, geq_ends hg hn hnear]
    by_cases hcover : b + next.p.length ≤ a + cseg.p.length
    · rw [if_pos (decide_eq_true hcover)]
      cases hf : next.fin with
      | true =>
        have hall : a + cseg.p.length = s.length :=
          le_antisymm (hg.end_le (.inl hpos)) ((hn.fin hf).symm.le.trans hcover)
        rw [hlast hf, if_pos rfl, oosCovered]
        exact ⟨true, rfl, hg.withFin hall, fun _ => rfl, trivial⟩
      | false =>
        rw [if_neg Bool.false_ne_true]
        obtain ⟨fin, hseg, hgen, hnil, hqueued⟩ := ih hrest (by omega)
        exact ⟨fin, hseg, hgen, hnil, hqueued.mono (by omega)⟩
    · rw [if_neg (by simpa using hcover)]
      refine ⟨false, ?_, hg.withoutFin, fun hf => absurd hf Bool.false_ne_true, hqueue⟩
      rw [← hfin]

theorem queued_insert (hg : Genuine s base a cseg) (hne : 0 < cseg.p.length ∨ cseg.fin = true)
    (hend : a + cseg.p.length ≤ hi) (hq : Queued s base hi lo q) (hlo : a < lo) (hspan : hi < a + 2 ^ 30) :
    Queued s base hi a (tcpOosInsertSegment cseg.seqno cseg q) := by
  rw [tcpOosInsertSegment]
  cases hf : cseg.fin with
  | true =>
    rw [if_pos rfl]
    exact ⟨a, le_rfl, hend, hg, hne, fun _ => rfl, trivial⟩
  | false =>
    have hpos : 0 < cseg.p.length := hne.resolve_right (by simp [hf])
    obtain ⟨fin, hseg, hgen, hnil, hqueued⟩ := oosCovered_spec hg hpos hf hend hq hlo hspan
    rw [if_neg Bool.false_ne_true]
    generalize oosCovered cseg.seqno cseg q = r at *
    obtain ⟨c, next⟩ := r
    dsimp only at hseg hnil hqueued ⊢
    subst hseg
    cases next with
    | nil => exact ⟨a, le_rfl, hend, hgen, .inl hpos, fun _ => rfl, trivial⟩
    | cons n rest =>
      have hfin : fin = false := by
        cases fin with
        | true => cases hnil rfl
        | false => rfl
      subst hfin
      obtain ⟨b, hb, hbhi, hn, hnne, hlast, hrest⟩ := hqueued
      have hnear : Near (a + cseg.p.length : ℕ) b := by
        unfold Near
        omega
      have hgt := gt_end_seqno hgen hn hnear
      dsimp only at hgt ⊢
      rw [hgt]
      have hshort := hg.short
      by_cases hover : b < a + cseg.p.length
      · have hlen : (n.seqno - cseg.seqno).toUInt16.toNat = b - a := by
          rw [hn.seqno, hg.seqno, toUInt16_number_sub base (by omega) (by omega)]
          omega
        have hcut := hgen.cut (show (n.seqno - cseg.seqno).toUInt16.toNat ≤ cseg.p.length by omega) rfl
        have hlength : (TcpSeg.cut { cseg with fin := false } (n.seqno - cseg.seqno).toUInt16).p.length = b - a := by
          rw [← hcut.len]
          exact hlen
        rw [if_pos (decide_eq_true hover)]
        refine ⟨a, le_rfl, by omega, hcut, .inl (by omega), fun hf => absurd hf Bool.false_ne_true, b, by omega,
          hbhi, hn, hnne, hlast, hrest⟩
      · rw [if_neg (by simpa using hover)]
        exact ⟨a, le_rfl, hend, hgen, .inl hpos, fun hf => absurd hf Bool.false_ne_true, b, by
          dsimp only; omega, hbhi, hn, hnne, hlast, hrest⟩

theorem queued_replace {next : TcpSeg} (hg : Genuine s base a cseg) (hend : a + cseg.p.length ≤ hi)
    (hn : Genuine s base a next) (hnne : 0 < next.p.length ∨ next.fin = true)
    (hlen : next.p.length < cseg.p.length) (hq : Queued s base hi (a + next.p.length) q) (hspan : hi < a + 2 ^ 30) :
    Queued s base hi a (tcpOosInsertSegment cseg.seqno cseg (next :: q)) := by
  have hbound := hg.end_le (.inl (by omega))
  have hnfin : next.fin = false := by
    rw [← Bool.not_eq_true]
    intro hf
    have := hn.fin hf
    omega
  have hnpos : 0 < next.p.length := hnne.resolve_right (by simp [hnfin])
  have hnear : Near (a + cseg.p.length : ℕ) (a + next.p.length : ℕ) := by
    unfold Near
    omega
  have hskip : tcpOosInsertSegment cseg.seqno cseg (next :: q) = tcpOosInsertSegment cseg.seqno cseg q := by
    rw [tcpOosInsertSegment, tcpOosInsertSegment, oosCovered, geq_ends hg hn hnear,
      if_pos (decide_eq_true (by omega)), hnfin, if_neg Bool.false_ne_true]
  rw [hskip]
  exact queued_insert hg (.inl (by omega)) hend hq (by omega) hspan

theorem cutBefore_spec {b : ℕ} {seg : TcpSeg} (hp : Genuine s base b seg) (hpos : 0 < seg.p.length)
    (hfin : seg.fin = false) (hba : b < a) (hspan : a < b + 2 ^ 30) :
    Genuine s base b (cutBefore (number base a) seg) ∧ 0 < (cutBefore (number base a) seg).p.length ∧
      (cutBefore (number base a) seg).fin = false ∧ b + (cutBefore (number base a) seg).p.length ≤ a ∧
      (cutBefore (number base a) seg).p.length ≤ seg.p.length := by
  have hshort := hp.short
  have hnear : Near (b + seg.p.length : ℕ) a := by
    unfold Near
    omega
  rw [cutBefore, hp.seqno_add_len, gt_number hnear]
  simp only [Nat.cast_lt]
  by_cases hover : a < b + seg.p.length
  · have hlen : (number base a - seg.seqno).toUInt16.toNat = a - b := by
      rw [hp.seqno, toUInt16_number_sub base (by omega) (by omega)]
      omega
    have hcut := hp.cut (show (number base a - seg.seqno).toUInt16.toNat ≤ seg.p.length by omega) hfin
    have hlength : (seg.cut (number base a - seg.seqno).toUInt16).p.length = a - b := by
      rw [← hcut.len]
      exact hlen
    rw [if_pos (decide_eq_true hover)]
    exact ⟨hcut, by omega, hfin, by omega, by omega⟩
  · rw [if_neg (by simpa using hover)]
    exact ⟨hp, hpos, hfin, by omega, le_rfl⟩

end Insertion

section Walk

variable {hi lo a m : ℕ} {inseg : TcpSeg} {pcb : RecvPcb} {copied : Bool} {prev : Option TcpSeg}

structure Passed (s : List UInt8) (base : UInt32) (hi lo a m : ℕ) (prev : Option TcpSeg) : Prop where
  keep : ∀ q, Queued s base hi m q → Queued s base hi lo (prev.toList ++ q)
  cut : ∀ q, Queued s base hi a q → Queued s base hi lo ((prev.map (cutBefore (number base a))).toList ++ q)
  before : ∀ c next, Genuine s base c next → m ≤ c → c ≤ hi →
    oosBefore (number base a) prev next = decide (a < c)

theorem passed_none (hlo : lo ≤ a) (hspan : hi < lo + 2 ^ 30) (ha : a ≤ hi) : Passed s base hi lo a lo none := by
  refine ⟨fun q hq => hq, fun q hq => hq.mono hlo, fun c next hn hc hhi => ?_⟩
  have hnear : Near a c := by
    unfold Near
    omega
  rw [oosBefore, hn.seqno, lt_number hnear]
  simp only [Nat.cast_lt]

theorem passed_some {b : ℕ} {seg : TcpSeg} (hp : Genuine s base b seg) (hpos : 0 < seg.p.length)
    (hfin : seg.fin = false) (hlo : lo ≤ b) (hend : b + seg.p.length ≤ hi) (hba : b < a)
    (hspan : hi < lo + 2 ^ 30) (ha : a ≤ hi) : Passed s base hi lo a (b + seg.p.length) (some seg) := by
  have hnofin : seg.fin = true → ∀ q : List TcpSeg, q = [] := by simp [hfin]
  refine ⟨fun q hq => ⟨b, hlo, hend, hp, .inl hpos, fun hf => hnofin hf q, hq⟩, fun q hq => ?_, ?_⟩
  · obtain ⟨hcut, hcpos, hcfin, hcend, hcle⟩ := cutBefore_spec hp hpos hfin hba (by omega)
    exact ⟨b, hlo, by omega, hcut, .inl hcpos, fun hf => absurd hf (by simp [hcfin]), hq.mono hcend⟩
  · intro c next hn hc hhi
    have hlow : Near (a : ℤ) (b + 1) := by
      unfold Near
      omega
    have hhigh : Near (a : ℤ) (c - 1) := by
      unfold Near
      omega
    rw [oosBefore, hp.seqno, hn.seqno, number_add_one, number_sub_one, between_number hlow hhigh, decide_eq_decide]
    omega

def EdgeSound (base : UInt32) (n a : ℕ) (pcb : RecvPcb) (inseg : TcpSeg) : Prop :=
  overruns (number base a) pcb inseg.tcplen = true → n + pcb.rcvWnd.toNat < a + inseg.tcplen.toNat

theorem edgeSound_of_turn {n a : ℕ} {pcb : RecvPcb} {inseg : TcpSeg} (hnxt : pcb.rcvNxt = number base n)
    (hturn : (base.toNat + n + pcb.rcvWnd.toNat) / 2 ^ 32 ≤ (base.toNat + a + inseg.tcplen.toNat) / 2 ^ 32) :
    EdgeSound base n a pcb inseg := by
  intro hover
  rw [overruns, decide_eq_true_eq, hnxt, number_add_toUInt32, UInt32.add_comm, number_add_toUInt32,
    UInt32.lt_iff_toNat_lt] at hover
  have hleft := toNat_number base (n + pcb.rcvWnd.toNat)
  have hright := toNat_number base (a + inseg.tcplen.toNat)
  omega

structure InWindow (base : UInt32) (n a : ℕ) (pcb : RecvPcb) : Prop where
  rcvNxt : pcb.rcvNxt = number base n
  left : n ≤ a
  right : a < n + pcb.rcvWnd.toNat

theorem trimmed_to_edge {n : ℕ} (hg : Genuine s base a inseg) (hw : InWindow base n a pcb)
    (hover : n + pcb.rcvWnd.toNat < a + inseg.tcplen.toNat) :
    let cseg := { inseg with fin := false }.cut (pcb.rcvNxt + pcb.rcvWnd.toUInt32 - inseg.seqno).toUInt16
    Genuine s base a cseg ∧ 0 < cseg.p.length ∧ cseg.p.length ≤ inseg.p.length := by
  intro cseg
  have htcplen := hg.tcplen
  have hfin := inseg.fin.toNat_le
  have hshort := hg.short
  have hleft := hw.left
  have hright := hw.right
  have hlen : (pcb.rcvNxt + pcb.rcvWnd.toUInt32 - inseg.seqno).toUInt16.toNat = n + pcb.rcvWnd.toNat - a := by
    rw [hw.rcvNxt, hg.seqno, number_add_toUInt32, toUInt16_number_sub base (by omega) (by omega)]
    omega
  have hle : (pcb.rcvNxt + pcb.rcvWnd.toUInt32 - inseg.seqno).toUInt16.toNat ≤ inseg.p.length := by omega
  have hcut := hg.withoutFin.cut hle rfl
  have hlength : cseg.p.length = n + pcb.rcvWnd.toNat - a := by
    rw [← hcut.len]
    exact hlen
  exact ⟨hcut, by omega, by omega⟩

theorem queued_append {n c : ℕ} {next : TcpSeg} (hn : Genuine s base c next)
    (hnne : 0 < next.p.length ∨ next.fin = true) (hnhi : c + next.p.length ≤ hi) (hca : c < a)
    (hg : Genuine s base a inseg) (hne : 0 < inseg.p.length ∨ inseg.fin = true)
    (hend : a + inseg.p.length ≤ hi) (hspan : hi < c + 2 ^ 30) (hw : InWindow base n a pcb)
    (hedge : EdgeSound base n a pcb inseg) :
    Queued s base hi c (oosAppend inseg.seqno pcb inseg copied next) := by
  have hkeep : Queued s base hi c [next] := ⟨c, le_rfl, hnhi, hn, hnne, fun _ => rfl, trivial⟩
  rw [oosAppend]
  split_ifs with hstop hover
  · exact hkeep
  all_goals
    have hfin : next.fin = false := by
      cases hf : next.fin with
      | true => simp [hf] at hstop
      | false => rfl
    obtain ⟨hcut, hcpos, hcfin, hcend, hcle⟩ :=
      cutBefore_spec hn (hnne.resolve_right (by simp [hfin])) hfin hca (by omega)
    rw [← hg.seqno] at hcut hcpos hcfin hcend hcle
  · rw [hg.seqno] at hover
    obtain ⟨hseg, hspos, hsle⟩ := trimmed_to_edge hg hw (hedge hover)
    exact ⟨c, le_rfl, by omega, hcut, .inl hcpos, fun hf => absurd hf (by simp [hcfin]), a, hcend, by omega, hseg,
      .inl hspos, fun _ => rfl, trivial⟩
  · exact ⟨c, le_rfl, by omega, hcut, .inl hcpos, fun hf => absurd hf (by simp [hcfin]), a, hcend, hend, hg, hne,
      fun _ => rfl, trivial⟩

theorem queued_walk {n : ℕ} {q : List TcpSeg} (hg : Genuine s base a inseg)
    (hne : 0 < inseg.p.length ∨ inseg.fin = true) (hend : a + inseg.p.length ≤ hi) (hw : InWindow base n a pcb)
    (hedge : EdgeSound base n a pcb inseg) (hpassed : Passed s base hi lo a m prev) (hq : Queued s base hi m q)
    (hlo : lo ≤ m) (hla : lo ≤ a) (hspan : hi < lo + 2 ^ 30) :
    Queued s base hi lo (oosWalk inseg.seqno pcb inseg copied prev q) := by
  induction q generalizing lo m prev with
  | nil =>
    have h := hpassed.keep [] hq
    rwa [List.append_nil] at h
  | cons next rest ih =>
    have hall := hpassed.keep _ hq
    obtain ⟨c, hc, hchi, hn, hnne, hlast, hrest⟩ := hq
    have hnear : Near (a : ℤ) c := by
      unfold Near
      omega
    have hsame : inseg.seqno = next.seqno ↔ a = c := by
      rw [hg.seqno, hn.seqno, number_inj hnear, Nat.cast_inj]
    have hbefore := hpassed.before c next hn hc (by omega)
    rw [oosWalk]
    split_ifs with heq hlonger hb hcopied hlastq
    · obtain rfl := hsame.mp heq
      have hlen : next.p.length < inseg.p.length := by
        rw [Bool.and_eq_true, decide_eq_true_iff, UInt16.lt_iff_toNat_lt, hn.len, hg.len] at hlonger
        exact hlonger.1
      exact hpassed.keep _ ((queued_replace hg hend hn hnne hlen hrest (by omega)).mono hc)
    · exact hall
    · rw [hg.seqno, hbefore, decide_eq_true_iff] at hb
      have hbehind : Queued s base hi (a + 1) (next :: rest) := ⟨c, hb, hchi, hn, hnne, hlast, hrest⟩
      have hcut := hpassed.cut _ (queued_insert hg hne hend hbehind (by omega) (by omega))
      rwa [← hg.seqno] at hcut
    · exact hall
    · rw [hg.seqno, hn.seqno, gt_number hnear, Bool.and_eq_true, decide_eq_true_iff, Nat.cast_lt] at hlastq
      exact hpassed.keep _ ((queued_append hn hnne hchi hlastq.2 hg hne hend (by omega) hw hedge).mono hc)
    · rw [hg.seqno, hbefore, decide_eq_true_iff] at hb
      have hca : c < a := by
        have hdiff : a ≠ c := fun h => heq (hsame.mpr h)
        omega
      have hmore : rest ≠ [] := by
        rintro rfl
        apply hlastq
        rw [hg.seqno, hn.seqno, gt_number hnear, List.isEmpty_nil, Bool.true_and, decide_eq_true_iff, Nat.cast_lt]
        exact hca
      have hfin : next.fin = false := by
        cases hf : next.fin with
        | true => exact absurd (hlast hf) hmore
        | false => rfl
      have hpos := hnne.resolve_right (by simp [hfin])
      have hnext : Passed s base hi m a (c + next.p.length) (some next) :=
        passed_some hn hpos hfin hc hchi hca (by omega) (by omega)
      exact hpassed.keep _ (ih hnext hrest (by omega) (by omega) (by omega))

end Walk

end LogoCore.Lwip
