import LogoCore.Loader

namespace LogoCore.Upload

open Channel

def Request.rank : Request → ℕ
  | .wrq => 0
  | .data seq _ => seq.toNat + 1
  | .other => 2 ^ 32

def rank (d : List UInt8) : ℕ := (Request.parse d).rank

@[simp] theorem rank_encodeWRQ (total crc : UInt32) : rank (encodeWRQ total crc) = 0 := by
  rw [rank, parse_encodeWRQ, Request.rank]

@[simp] theorem rank_encodeDATA (seq : UInt32) (chunk : List UInt8) :
    rank (encodeDATA seq chunk) = seq.toNat + 1 := by
  rw [rank, parse_encodeDATA, Request.rank]

@[simp] theorem rank_encodeTag_fin : rank (encodeTag tagFIN) = 2 ^ 32 := by
  rw [rank, parse_encodeTag_fin, Request.rank]

namespace Config

variable (cfg : Config) (blk : UInt32)

def confirmed : Stage → ℕ
  | .wrq => 0
  | .data seq _ => seq.toNat
  | .fin => (cfg.nblocks blk).toNat

def reach : Stage → ℕ
  | .wrq => 0
  | .data seq _ => seq.toNat + 1
  | .fin => (cfg.nblocks blk).toNat

theorem reach_le (stage : Stage) : cfg.reach blk stage ≤ cfg.confirmed blk stage + 1 := by
  cases stage <;> simp [reach, confirmed]

def Payload : Stage → List UInt8 → Prop
  | .wrq, p => p = encodeWRQ cfg.total cfg.crc
  | .data seq b, p => b = blk ∧ seq < cfg.nblocks blk ∧ p = encodeDATA seq (block cfg.img blk.toNat seq.toNat)
  | .fin, p => p = encodeTag tagFIN

inductive Genuine (stage : Stage) : List UInt8 → Prop
  | wrq : Genuine stage (encodeWRQ cfg.total cfg.crc)
  | data (seq : UInt32) (h : seq.toNat < cfg.reach blk stage) :
    Genuine stage (encodeDATA seq (block cfg.img blk.toNat seq.toNat))
  | fin (h : stage = .fin) : Genuine stage (encodeTag tagFIN)

variable {cfg blk} {st st' : Stage} {p d : List UInt8}

theorem Payload.genuine (h : cfg.Payload blk st p) : cfg.Genuine blk st p := by
  cases st with
  | wrq => exact h ▸ .wrq
  | data seq b =>
    obtain ⟨-, -, rfl⟩ := h
    exact .data seq (Nat.lt_succ_self _)
  | fin => exact h ▸ .fin rfl

theorem Payload.reach_le (h : cfg.Payload blk st p) : cfg.reach blk st ≤ rank p := by
  cases st with
  | wrq => exact Nat.zero_le _
  | data seq b =>
    obtain ⟨-, -, rfl⟩ := h
    rw [rank_encodeDATA, reach]
  | fin =>
    rw [Payload] at h
    rw [h, rank_encodeTag_fin]
    exact (cfg.nblocks blk).toNat_lt.le

theorem Genuine.rank_le (h : cfg.Genuine blk st d) (hp : cfg.Payload blk st p) : rank d ≤ rank p := by
  cases h with
  | wrq => simp
  | data seq h =>
    rw [rank_encodeDATA]
    exact h.trans_le hp.reach_le
  | fin h =>
    subst h
    rw [Payload] at hp
    rw [hp]

theorem Genuine.mono (h : cfg.Genuine blk st d) (hle : cfg.reach blk st ≤ cfg.reach blk st') (hst : st ≠ .fin) :
    cfg.Genuine blk st' d := by
  cases h with
  | wrq => exact .wrq
  | data seq h => exact .data seq (h.trans_le hle)
  | fin h => exact absurd h hst

end Config

structure Synced (cfg : Config) (blk : UInt32) (st : Stage) (ld : Loader) (flight : List (List UInt8)) : Prop where
  low : cfg.confirmed blk st ≤ ld.expected
  high : ld.expected ≤ cfg.reach blk st
  stored : ld.stored = blocks cfg.img blk.toNat ld.expected
  flow : Flow rank (fun d => cfg.Genuine blk st d ∧ ld.expected ≤ rank d) flight

namespace Synced

variable {cfg : Config} {blk : UInt32} {st : Stage} {ld : Loader} {d : List UInt8} {ds : List (List UInt8)}

theorem head_cases (h : Synced cfg blk st ld (d :: ds)) (answer : List UInt8 → List UInt8) :
    ((ld.serve blk answer d).1 = ld ∧ (st ≠ .fin → Answers blk ld.expected (ld.serve blk answer d).2)) ∨
      ∃ seq : UInt32, d = encodeDATA seq (block cfg.img blk.toNat seq.toNat) ∧ seq.toNat = ld.expected ∧
        seq.toNat < cfg.reach blk st ∧ ld.serve blk answer d =
          (⟨ld.expected + 1, ld.stored ++ [block cfg.img blk.toNat seq.toNat]⟩, adat seq stOK) := by
  obtain ⟨hgen, hrank⟩ := h.flow.all d (by simp)
  have hstored := h.stored
  cases hgen with
  | wrq =>
    have hzero : ld.expected = 0 := by simpa using hrank
    rw [hzero, blocks_zero] at hstored
    rw [Loader.serve_encodeWRQ, ← hzero, ← hstored]
    exact .inl ⟨rfl, fun _ => .awrq⟩
  | data seq hseq =>
    rw [rank_encodeDATA] at hrank
    rw [Loader.serve_encodeDATA]
    by_cases hnext : seq.toNat = ld.expected
    · exact .inr ⟨seq, rfl, hnext, hseq, by rw [if_pos hnext]⟩
    · have hlast : seq.toNat + 1 = ld.expected := by
        have hlow := h.low
        have hstep := cfg.reach_le blk st
        omega
      rw [if_neg hnext, if_pos hlast]
      exact .inl ⟨rfl, fun _ => .adat seq (by omega)⟩
  | fin hfin =>
    rw [Loader.serve_encodeTag_fin]
    exact .inl ⟨rfl, fun hne => absurd hfin hne⟩

theorem serve (h : Synced cfg blk st ld (d :: ds)) (answer : List UInt8 → List UInt8) :
    Synced cfg blk st (ld.serve blk answer d).1 ds := by
  obtain ⟨hsame, -⟩ | ⟨seq, rfl, hseq, hreach, hserve⟩ := h.head_cases answer
  · rw [hsame]
    exact ⟨h.low, h.high, h.stored, h.flow.tail.mono fun x _ hx => hx.1⟩
  · rw [hserve]
    refine ⟨h.low.trans (Nat.le_succ _), hseq ▸ hreach, ?_, h.flow.tail.mono fun x _ hx => ⟨hx.1.1, ?_⟩⟩
    · rw [blocks_succ, h.stored, hseq]
    · have hx := hx.2
      rw [rank_encodeDATA, hseq] at hx
      exact hx

theorem expected_le (h : Synced cfg blk st ld (d :: ds)) (answer : List UInt8 → List UInt8) :
    ld.expected ≤ (ld.serve blk answer d).1.expected := by
  obtain ⟨hsame, -⟩ | ⟨seq, -, -, -, hserve⟩ := h.head_cases answer
  · rw [hsame]
  · rw [hserve]
    exact Nat.le_succ _

theorem reply (h : Synced cfg blk st ld (d :: ds)) (hst : st ≠ .fin) (answer : List UInt8 → List UInt8) :
    Answers blk (ld.serve blk answer d).1.expected (ld.serve blk answer d).2 := by
  obtain ⟨hsame, hreply⟩ | ⟨seq, -, hseq, -, hserve⟩ := h.head_cases answer
  · rw [hsame]
    exact hreply hst
  · rw [hserve]
    exact .adat seq (by rw [hseq]; exact Nat.lt_succ_self _)

end Synced

end LogoCore.Upload
