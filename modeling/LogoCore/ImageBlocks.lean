import LogoCore.Uploader

namespace LogoCore.Upload

def block (img : List UInt8) (blk k : ℕ) : List UInt8 := (img.drop (k * blk)).take blk

def blocks (img : List UInt8) (blk n : ℕ) : List (List UInt8) := (List.range n).map (block img blk)

@[simp] theorem blocks_zero (img : List UInt8) (blk : ℕ) : blocks img blk 0 = [] := rfl

theorem blocks_succ (img : List UInt8) (blk n : ℕ) :
    blocks img blk (n + 1) = blocks img blk n ++ [block img blk n] := by
  simp [blocks, List.range_succ]

theorem flatten_blocks (img : List UInt8) (blk n : ℕ) : (blocks img blk n).flatten = img.take (n * blk) := by
  induction n with
  | zero => simp
  | succ n ih =>
    rw [blocks_succ, List.flatten_append, ih, Nat.succ_mul, List.take_add]
    simp [block]

namespace Config

variable {cfg : Config} {blk : UInt32}

/-- The image and the block size the device names fit the uploader's 32-bit arithmetic. -/
structure Fits (cfg : Config) (blk : UInt32) : Prop where
  pos : 1 ≤ blk.toNat
  small : cfg.img.length + blk.toNat - 1 < 2 ^ 32

theorem Fits.total (h : cfg.Fits blk) : cfg.total.toNat = cfg.img.length := by
  obtain ⟨hpos, hsmall⟩ := h
  rw [Config.total, UInt32.toNat_ofNat']
  exact Nat.mod_eq_of_lt (by omega)

theorem toNat_round (hpos : 1 ≤ blk.toNat) :
    (cfg.total + blk - 1).toNat = (cfg.total.toNat + blk.toNat - 1) % 2 ^ 32 := by
  rw [UInt32.toNat_sub, UInt32.toNat_add]
  simp only [UInt32.reduceToNat]
  omega

theorem Fits.nblocks (h : cfg.Fits blk) :
    (cfg.nblocks blk).toNat = (cfg.img.length + blk.toNat - 1) / blk.toNat := by
  rw [Config.nblocks, UInt32.toNat_div, toNat_round h.pos, h.total, Nat.mod_eq_of_lt h.small]

theorem Fits.le_nblocks_mul (h : cfg.Fits blk) : cfg.img.length ≤ (cfg.nblocks blk).toNat * blk.toNat := by
  have hpos := h.pos
  have hmod := Nat.mod_lt (cfg.img.length + blk.toNat - 1) hpos
  have hdiv := Nat.div_add_mod (cfg.img.length + blk.toNat - 1) blk.toNat
  rw [h.nblocks, Nat.mul_comm]
  omega

theorem Fits.flatten (h : cfg.Fits blk) :
    (blocks cfg.img blk.toNat (cfg.nblocks blk).toNat).flatten = cfg.img := by
  rw [flatten_blocks, List.take_of_length_le h.le_nblocks_mul]

theorem nblocks_mul_le (hpos : 1 ≤ blk.toNat) :
    (cfg.nblocks blk).toNat * blk.toNat ≤ (cfg.total.toNat + blk.toNat - 1) % 2 ^ 32 := by
  rw [Config.nblocks, UInt32.toNat_div, toNat_round hpos]
  exact Nat.div_mul_le_self _ _

theorem chunk_eq (hpos : 1 ≤ blk.toNat) {seq : UInt32} (hseq : seq < cfg.nblocks blk) :
    cfg.chunk seq blk = some (block (cfg.img.take cfg.total.toNat) blk.toNat seq.toNat) := by
  have hle : seq.toNat * blk.toNat + blk.toNat ≤ (cfg.total.toNat + blk.toNat - 1) % 2 ^ 32 := by
    have hstep := Nat.mul_le_mul_right blk.toNat (UInt32.lt_iff_toNat_lt.mp hseq)
    rw [Nat.succ_mul] at hstep
    exact hstep.trans (nblocks_mul_le hpos)
  have hmod := Nat.mod_le (cfg.total.toNat + blk.toNat - 1) (2 ^ 32)
  have hwrap := Nat.mod_lt (cfg.total.toNat + blk.toNat - 1) (show 0 < 2 ^ 32 by decide)
  have htotal : cfg.total.toNat ≤ cfg.img.length := by
    rw [Config.total, UInt32.toNat_ofNat']
    exact Nat.mod_le _ _
  have hnext : ((seq + 1) * blk).toNat = seq.toNat * blk.toNat + blk.toNat := by
    rw [UInt32.toNat_mul, toNat_succ hseq, Nat.succ_mul]
    exact Nat.mod_eq_of_lt (by omega)
  have hlo : (seq * blk).toNat = seq.toNat * blk.toNat := by
    rw [UInt32.toNat_mul]
    exact Nat.mod_eq_of_lt (by omega)
  have hhi : (if (seq + 1) * blk > cfg.total then cfg.total else (seq + 1) * blk).toNat =
      min (seq.toNat * blk.toNat + blk.toNat) cfg.total.toNat := by
    split_ifs with hgt
    · have := UInt32.lt_iff_toNat_lt.mp hgt
      omega
    · have := UInt32.le_iff_toNat_le.mp (UInt32.not_lt.mp hgt)
      omega
  have hcut : (cfg.img.take (min (seq.toNat * blk.toNat + blk.toNat) cfg.total.toNat)).drop
      (seq.toNat * blk.toNat) = block (cfg.img.take cfg.total.toNat) blk.toNat seq.toNat := by
    rw [← List.take_take, List.drop_take, Nat.add_sub_cancel_left, block]
  simp only [Config.chunk]
  rw [if_pos, hhi, hlo, hcut]
  rw [UInt32.le_iff_toNat_le, hhi, hlo]
  omega

theorem Fits.chunk (h : cfg.Fits blk) {seq : UInt32} (hseq : seq < cfg.nblocks blk) :
    cfg.chunk seq blk = some (block cfg.img blk.toNat seq.toNat) := by
  rw [chunk_eq h.pos hseq, h.total, List.take_length]

end Config

end LogoCore.Upload
