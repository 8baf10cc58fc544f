import LogoCore.CompleteTransfer

namespace LogoCore.Upload

theorem length_block (img : List UInt8) (blk k : ℕ) : (block img blk k).length = min blk (img.length - k * blk) := by
  rw [block, List.length_take, List.length_drop]

theorem getElem?_blocks {img : List UInt8} {blk n k : ℕ} {c : List UInt8} :
    (blocks img blk n)[k]? = some c ↔ k < n ∧ c = block img blk k := by
  by_cases hk : k < n
  · simp [blocks, hk, eq_comm]
  · simp [blocks, hk]

namespace Config

variable {cfg : Config} {blk : UInt32}

/-- The slices of the block loop, in order; `none` would be one out of range. -/
def slices (cfg : Config) (blk : UInt32) : List (Option (List UInt8)) :=
  (List.range (cfg.nblocks blk).toNat).map fun k => cfg.chunk (UInt32.ofNat k) blk

theorem toNat_index {k : ℕ} (hk : k < (cfg.nblocks blk).toNat) : (UInt32.ofNat k).toNat = k := by
  rw [UInt32.toNat_ofNat']
  exact Nat.mod_eq_of_lt (hk.trans (cfg.nblocks blk).toNat_lt)

theorem index_lt {k : ℕ} (hk : k < (cfg.nblocks blk).toNat) : UInt32.ofNat k < cfg.nblocks blk := by
  rw [UInt32.lt_iff_toNat_lt, toNat_index hk]
  exact hk

theorem Fits.slices (h : cfg.Fits blk) :
    cfg.slices blk = (blocks cfg.img blk.toNat (cfg.nblocks blk).toNat).map some := by
  rw [Config.slices, blocks, List.map_map]
  apply List.map_congr_left
  intro k hk
  have hk := List.mem_range.mp hk
  rw [h.chunk (index_lt hk), toNat_index hk]
  rfl

theorem Fits.nblocks_mul_lt (h : cfg.Fits blk) : (cfg.nblocks blk).toNat * blk.toNat < cfg.img.length + blk.toNat := by
  have hle := Nat.div_mul_le_self (cfg.img.length + blk.toNat - 1) blk.toNat
  have hpos := h.pos
  rw [h.nblocks]
  omega

theorem Fits.length_block (h : cfg.Fits blk) {k : ℕ} (hk : k < (cfg.nblocks blk).toNat) :
    block cfg.img blk.toNat k ≠ [] ∧ (block cfg.img blk.toNat k).length ≤ blk.toNat ∧
      (k + 1 < (cfg.nblocks blk).toNat → (block cfg.img blk.toNat k).length = blk.toNat) := by
  have hlast := h.nblocks_mul_lt
  have hpos := h.pos
  have hlen := Upload.length_block cfg.img blk.toNat k
  refine ⟨?_, by omega, fun hnext => ?_⟩
  · have hmul := Nat.mul_le_mul_right blk.toNat (show k + 1 ≤ (cfg.nblocks blk).toNat from hk)
    rw [Nat.succ_mul] at hmul
    rw [← List.length_pos_iff]
    omega
  · have hmul := Nat.mul_le_mul_right blk.toNat (show k + 2 ≤ (cfg.nblocks blk).toNat from hnext)
    rw [Nat.add_mul] at hmul
    omega

theorem Fits.sendBlock (h : cfg.Fits blk) {seq : UInt32} (hseq : seq < cfg.nblocks blk) :
    cfg.sendBlock seq blk =
      cfg.exchange (.data seq blk) (encodeDATA seq (block cfg.img blk.toNat seq.toNat)) 0 := by
  rw [Config.sendBlock, if_pos hseq, h.chunk hseq]

theorem Fits.content (h : cfg.Fits blk) (k : ℕ) : cfg.content blk k = block cfg.img blk.toNat k := by
  rw [Config.content, h.total, List.take_length]

end Config

/-- Decoding a DATA datagram with `u32At` at 0 and 4 and the bytes from 8 on. -/
def decodeDATA (d : List UInt8) : (UInt32 × Bool) × (UInt32 × Bool) × List UInt8 := (u32At d 0, u32At d 4, d.drop 8)

/-- The datagram for block `k`: its number, its size among `n` blocks, and its place in the loop of `run`. -/
structure BlockDatagram (cfg : Config) (blk : UInt32) (n k : ℕ) (seq : UInt32) (c : List UInt8) : Prop where
  number : seq.toNat = k
  nonempty : c ≠ []
  bounded : c.length ≤ blk.toNat
  full : k + 1 < n → c.length = blk.toNat
  built : cfg.sendBlock seq blk = cfg.exchange (.data seq blk) (encodeDATA seq c) 0
  decoded : decodeDATA (encodeDATA seq c) = ((tagDATA, true), (seq, true), c)

theorem decodeDATA_encodeDATA (seq : UInt32) (c : List UInt8) :
    decodeDATA (encodeDATA seq c) = ((tagDATA, true), (seq, true), c) := by
  obtain ⟨htag, hseq, hrest⟩ := u32At_encodeDATA seq c
  rw [decodeDATA, htag, hseq, hrest]

theorem Config.Fits.datagram {cfg : Config} {blk : UInt32} (h : cfg.Fits blk) {k : ℕ}
    (hk : k < (cfg.nblocks blk).toNat) :
    BlockDatagram cfg blk (cfg.nblocks blk).toNat k (UInt32.ofNat k) (block cfg.img blk.toNat k) := by
  obtain ⟨hne, hle, hfull⟩ := h.length_block hk
  refine ⟨Config.toNat_index hk, hne, hle, hfull, ?_, decodeDATA_encodeDATA _ _⟩
  rw [h.sendBlock (Config.index_lt hk), Config.toNat_index hk]

/-- The blocks the uploader cuts are the image in order, and a run sends block `seq` under the number
`seq` once all blocks before it are acknowledged. -/
theorem image_partition (cfg : Config) (blk : UInt32) (hpos : 1 ≤ blk.toNat)
    (hsmall : cfg.img.length + blk.toNat - 1 < 2 ^ 32) :
    ∃ cs : List (List UInt8), cfg.slices blk = cs.map some ∧
      cs.length = (cfg.img.length + blk.toNat - 1) / blk.toNat ∧ cs.flatten = cfg.img ∧
      (∀ k c, cs[k]? = some c → BlockDatagram cfg blk cs.length k (UInt32.ofNat k) c) ∧
      (∀ seq, cs.length ≤ seq.toNat → cfg.sendBlock seq blk = cfg.exchange .fin (encodeTag tagFIN) 0) ∧
      ∀ es, (transferMachine cfg).Legal (.start cfg) es → ∀ seq p,
        ((transferMachine cfg).run (.start cfg) es).up.state.current = some (.data seq blk, p) →
          (∃ c, cs[seq.toNat]? = some c ∧ p = encodeDATA seq c) ∧
            ((transferMachine cfg).run (.start cfg) es).answered = cfg.dataBlocks blk seq.toNat := by
  have h : cfg.Fits blk := ⟨hpos, hsmall⟩
  have hlen : (blocks cfg.img blk.toNat (cfg.nblocks blk).toNat).length = (cfg.nblocks blk).toNat := by
    rw [blocks, List.length_map, List.length_range]
  refine ⟨blocks cfg.img blk.toNat (cfg.nblocks blk).toNat, h.slices, by rw [hlen, h.nblocks], h.flatten, ?_, ?_, ?_⟩
  · intro k c hc
    obtain ⟨hk, rfl⟩ := getElem?_blocks.mp hc
    rw [hlen]
    exact h.datagram hk
  · intro seq hseq
    rw [hlen] at hseq
    rw [Config.sendBlock, if_neg fun hlt => absurd (UInt32.lt_iff_toNat_lt.mp hlt) (by omega)]
  · intro es hl seq p hcur
    have hprog : ((transferMachine cfg).run (.start cfg) es).Progress cfg :=
      Machine.invariant (M := transferMachine cfg) (fun _ _ _ h => Transfer.progress_step h)
        Transfer.progress_start hl
    obtain ⟨hp, -, -, hlt, hans, -⟩ := hprog.stage _ _ hcur
    rw [h.content] at hp
    exact ⟨⟨_, getElem?_blocks.mpr ⟨UInt32.lt_iff_toNat_lt.mp hlt, rfl⟩, hp⟩, hans⟩

theorem image_partition_three_bytes :
    ∃ cs : List (List UInt8), Config.slices ⟨[7, 8, 9], 20⟩ 2 = cs.map some ∧ cs.flatten = [7, 8, 9] := by
  obtain ⟨cs, hslices, -, hflat, -⟩ := image_partition ⟨[7, 8, 9], 20⟩ 2 (by decide) (by decide)
  exact ⟨cs, hslices, hflat⟩

end LogoCore.Upload
