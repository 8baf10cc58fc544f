import LogoCore.TcpReceive

namespace LogoCore.Lwip

open Ethernet SequenceNumbers

variable {s : List UInt8} {base : UInt32}

structure Genuine (s : List UInt8) (base : UInt32) (a : ℕ) (seg : TcpSeg) : Prop where
  seqno : seg.seqno = number base a
  len : seg.len.toNat = seg.p.length
  short : seg.p.length < 2 ^ 15
  bytes : seg.p <+: s.drop a
  fin : seg.fin = true → a + seg.p.length = s.length
  syn : seg.syn = false

def Queued (s : List UInt8) (base : UInt32) (hi : ℕ) : ℕ → List TcpSeg → Prop
  | _, [] => True
  | lo, seg :: rest =>
    ∃ a, lo ≤ a ∧ a + seg.p.length ≤ hi ∧ Genuine s base a seg ∧ (0 < seg.p.length ∨ seg.fin = true) ∧
      (seg.fin = true → rest = []) ∧ Queued s base hi (a + seg.p.length) rest

namespace Genuine

variable {a : ℕ} {seg : TcpSeg}

theorem length_le (h : Genuine s base a seg) : seg.p.length ≤ s.length - a := by
  have hle := h.bytes.length_le
  rwa [List.length_drop] at hle

theorem end_le (h : Genuine s base a seg) (hne : 0 < seg.p.length ∨ seg.fin = true) :
    a + seg.p.length ≤ s.length := by
  have hle := h.length_le
  obtain hpos | hfin := hne
  · omega
  · exact (h.fin hfin).le

theorem cut (h : Genuine s base a seg) {len : UInt16} (hlen : len.toNat ≤ seg.p.length) (hfin : seg.fin = false) :
    Genuine s base a (seg.cut len) := by
  have hlength : (seg.cut len).p.length = len.toNat := List.length_take_of_le hlen
  refine ⟨h.seqno, hlength.symm, ?_, (List.take_prefix _ _).trans h.bytes, ?_, h.syn⟩
  · rw [hlength]
    exact hlen.trans_lt h.short
  · intro hf
    rw [show (seg.cut len).fin = seg.fin from rfl, hfin] at hf
    cases hf

theorem take_append (h : Genuine s base a seg) : s.take a ++ seg.p = s.take (a + seg.p.length) := by
  rw [List.take_add, ← List.prefix_iff_eq_take.mp h.bytes]

theorem withFin (h : Genuine s base a seg) (hend : a + seg.p.length = s.length) :
    Genuine s base a { seg with fin := true } :=
  ⟨h.seqno, h.len, h.short, h.bytes, fun _ => hend, h.syn⟩

theorem withoutFin (h : Genuine s base a seg) : Genuine s base a { seg with fin := false } :=
  ⟨h.seqno, h.len, h.short, h.bytes, fun hf => absurd hf Bool.false_ne_true, h.syn⟩

theorem drop (h : Genuine s base a seg) {k : ℕ} (hk : k ≤ seg.p.length) {len : UInt16}
    (hlen : len.toNat = seg.p.length - k) :
    Genuine s base (a + k) { seg with seqno := number base (a + k : ℕ), len := len, p := seg.p.drop k } := by
  obtain ⟨t, ht⟩ := h.bytes
  refine ⟨rfl, ?_, ?_, ⟨t, ?_⟩, fun hf => ?_, h.syn⟩
  · rw [hlen, List.length_drop]
  · have hshort := h.short
    dsimp only
    rw [List.length_drop]
    omega
  · rw [← List.drop_drop, ← ht, List.drop_append_of_le_length hk]
  · have hend := h.fin hf
    dsimp only
    rw [List.length_drop]
    omega

theorem seqno_add_len (h : Genuine s base a seg) :
    seg.seqno + seg.len.toUInt32 = number base ((a + seg.p.length : ℕ) : ℤ) := by
  rw [h.seqno, number_add_toUInt32, h.len, Nat.cast_add]

theorem tcplen (h : Genuine s base a seg) : seg.tcplen.toNat = seg.p.length + seg.fin.toNat := by
  have hshort := h.short
  have hlen := h.len
  rw [TcpSeg.tcplen, UInt16.toNat_add, h.syn, Bool.or_false]
  cases seg.fin <;> simp <;> omega

theorem seqno_add_tcplen (h : Genuine s base a seg) :
    seg.seqno + seg.tcplen.toUInt32 = number base ((a + seg.p.length + seg.fin.toNat : ℕ) : ℤ) := by
  rw [h.seqno, number_add_toUInt32, h.tcplen]
  congr 1
  omega

end Genuine

namespace Queued

variable {hi lo : ℕ} {q : List TcpSeg}

theorem mono (h : Queued s base hi lo q) {lo' : ℕ} (hlo : lo' ≤ lo) : Queued s base hi lo' q := by
  cases q with
  | nil => trivial
  | cons seg rest =>
    obtain ⟨a, ha, hrest⟩ := h
    exact ⟨a, hlo.trans ha, hrest⟩

theorem raise (h : Queued s base hi lo q) {hi' : ℕ} (hhi : hi ≤ hi') : Queued s base hi' lo q := by
  induction q generalizing lo with
  | nil => trivial
  | cons seg rest ih =>
    obtain ⟨a, ha, hend, hg, hne, hlast, hrest⟩ := h
    exact ⟨a, ha, hend.trans hhi, hg, hne, hlast, ih hrest⟩

end Queued

end LogoCore.Lwip
