import LogoCore.ImageBlocks

namespace LogoCore.Upload

structure Transfer where
  up : Uploader
  blk : Option UInt32
  answered : List (List UInt8)

namespace Transfer

def start (cfg : Config) : Transfer := ⟨.start cfg, none, []⟩

def note (t : Transfer) (payload reply : List UInt8) : Stage → Transfer
  | .wrq => { t with blk := some (u32At reply 8).1 }
  | .data _ _ => if (u32At reply 8).1 = stOK then { t with answered := t.answered ++ [payload] } else t
  | .fin => t

def observe (t : Transfer) : State → SockEvent → Transfer
  | .reading stage payload _, .datagram _ d =>
    if stage.accepts (d.take 2048) then t.note payload (d.take 2048) stage else t
  | _, _ => t

def step (cfg : Config) (t : Transfer) (e : SockEvent) : Transfer :=
  { t.observe t.up.state e with up := t.up.step cfg e }

/-- Every byte of the image has been sent in a DATA datagram with an accepted ADAT, at its place. -/
def Complete (cfg : Config) (t : Transfer) (blk : UInt32) : Prop :=
  ∀ i < cfg.img.length, ∃ seq chunk, encodeDATA seq chunk ∈ t.up.sent ∧ encodeDATA seq chunk ∈ t.answered ∧
    seq.toNat * blk.toNat ≤ i ∧ chunk[i - seq.toNat * blk.toNat]? = cfg.img[i]?

end Transfer

def transferMachine (cfg : Config) : Machine Transfer SockEvent :=
  ⟨fun t e => t.up.Enabled e, Transfer.step cfg⟩

instance (cfg : Config) (t : Transfer) (e : SockEvent) : Decidable ((transferMachine cfg).enabled t e) :=
  inferInstanceAs (Decidable (t.up.Enabled e))

namespace Config

variable (cfg : Config) (blk : UInt32)

def content (k : ℕ) : List UInt8 := block (cfg.img.take cfg.total.toNat) blk.toNat k

def dataBlocks (n : ℕ) : List (List UInt8) :=
  (List.range n).map fun k => encodeDATA (UInt32.ofNat k) (cfg.content blk k)

variable {cfg blk}

theorem dataBlocks_succ (seq : UInt32) :
    cfg.dataBlocks blk (seq.toNat + 1) =
      cfg.dataBlocks blk seq.toNat ++ [encodeDATA seq (cfg.content blk seq.toNat)] := by
  simp [dataBlocks, List.range_succ]

theorem mem_dataBlocks {n : ℕ} (hn : n ≤ 2 ^ 32) {seq : UInt32} {c : List UInt8} :
    encodeDATA seq c ∈ cfg.dataBlocks blk n ↔ seq.toNat < n ∧ c = cfg.content blk seq.toNat := by
  simp only [dataBlocks, List.mem_map, List.mem_range]
  constructor
  · rintro ⟨k, hk, heq⟩
    obtain ⟨rfl, rfl⟩ := encodeDATA_inj heq
    have hsmall : (UInt32.ofNat k).toNat = k := by
      rw [UInt32.toNat_ofNat']
      exact Nat.mod_eq_of_lt (by omega)
    rw [hsmall]
    exact ⟨hk, rfl⟩
  · rintro ⟨hk, rfl⟩
    exact ⟨seq.toNat, hk, by rw [UInt32.ofNat_toNat]⟩

theorem getElem?_content (k j : ℕ) :
    (cfg.content blk k)[j]? =
      if j < blk.toNat ∧ k * blk.toNat + j < cfg.total.toNat then cfg.img[k * blk.toNat + j]? else none := by
  rw [content, block, List.getElem?_take, List.getElem?_drop, List.getElem?_take]
  split_ifs <;> first | rfl | omega

theorem exchange_ne_reading {stage st : Stage} {payload p : List UInt8} {attempt a : ℕ} :
    cfg.exchange stage payload attempt ≠ .reading st p a := by
  unfold exchange
  split_ifs <;> simp

theorem sendBlock_ne_reading {seq : UInt32} {st : Stage} {p : List UInt8} {a : ℕ} :
    cfg.sendBlock seq blk ≠ .reading st p a := by
  unfold sendBlock
  split_ifs
  · cases cfg.chunk seq blk with
    | none => simp
    | some c => exact exchange_ne_reading
  · exact exchange_ne_reading

theorem sendBlock_ne_indexOutOfRange (hpos : 1 ≤ blk.toNat) (seq : UInt32) :
    cfg.sendBlock seq blk ≠ .exited .indexOutOfRange := by
  unfold sendBlock
  split_ifs with hlt
  · rw [chunk_eq hpos hlt]
    exact exchange_ne_indexOutOfRange _ _ _
  · exact exchange_ne_indexOutOfRange _ _ _

end Config

namespace Transfer

variable {cfg : Config} {t : Transfer}

def Finished (cfg : Config) (t : Transfer) : Prop :=
  ∃ blk, t.blk = some blk ∧ 1 ≤ blk.toNat ∧ t.answered = cfg.dataBlocks blk (cfg.nblocks blk).toNat

def Reached (cfg : Config) (t : Transfer) : Stage → List UInt8 → Prop
  | .wrq, p => p = encodeWRQ cfg.total cfg.crc ∧ t.answered = [] ∧ encodeTag tagFIN ∉ t.up.sent
  | .data seq blk, p => p = encodeDATA seq (cfg.content blk seq.toNat) ∧ t.blk = some blk ∧ 1 ≤ blk.toNat ∧
      seq < cfg.nblocks blk ∧ t.answered = cfg.dataBlocks blk seq.toNat ∧ encodeTag tagFIN ∉ t.up.sent
  | .fin, p => p = encodeTag tagFIN ∧ t.Finished cfg

structure Progress (cfg : Config) (t : Transfer) : Prop where
  inRange : t.up.state ≠ .exited .indexOutOfRange
  sent : ∀ p ∈ t.answered, p ∈ t.up.sent
  reading : ∀ st p a, t.up.state = .reading st p a → p ∈ t.up.sent
  stage : ∀ st p, t.up.state.current = some (st, p) → t.Reached cfg st p
  fin : encodeTag tagFIN ∈ t.up.sent → t.Finished cfg

theorem reached_sendBlock {u : Uploader} {blk seq : UInt32} {answered : List (List UInt8)} (hpos : 1 ≤ blk.toNat)
    (hle : seq ≤ cfg.nblocks blk) (hans : answered = cfg.dataBlocks blk seq.toNat)
    (hfin : encodeTag tagFIN ∉ u.sent) {st : Stage} {p : List UInt8}
    (h : (cfg.sendBlock seq blk).current = some (st, p)) : Reached cfg ⟨u, some blk, answered⟩ st p := by
  obtain ⟨rfl, hlt, c, hc, rfl⟩ | ⟨rfl, hge, rfl⟩ := Config.sendBlock_current h
  · rw [Config.chunk_eq hpos hlt] at hc
    obtain rfl := Option.some.inj hc
    exact ⟨rfl, rfl, hpos, hlt, hans, hfin⟩
  · have hlast : seq = cfg.nblocks blk := UInt32.le_antisymm hle (UInt32.not_lt.mp hge)
    exact ⟨rfl, blk, rfl, hpos, hlast ▸ hans⟩

theorem progress_start : Progress cfg (start cfg) := by
  refine ⟨Config.exchange_ne_indexOutOfRange _ _ _, by simp [start], fun _ _ _ h => absurd h Config.exchange_ne_reading,
    fun st p h => ?_, ?_⟩
  · obtain ⟨rfl, rfl⟩ := Config.exchange_current h
    exact ⟨rfl, rfl, by simp [start, Uploader.start]⟩
  · simp [start, Uploader.start]

theorem Reached.frame {v : Uploader} (hs : v.sent = t.up.sent) {st : Stage} {p : List UInt8}
    (h : t.Reached cfg st p) : Reached cfg { t with up := v } st p := by
  cases st with
  | wrq => simpa only [Reached, hs] using h
  | data seq blk => simpa only [Reached, hs] using h
  | fin => exact h

theorem Progress.retry (h : Progress cfg t) {st : Stage} {p : List UInt8} (hc : t.up.state.current = some (st, p))
    (attempt : ℕ) : Progress cfg { t with up := { t.up with state := cfg.exchange st p attempt } } := by
  refine ⟨Config.exchange_ne_indexOutOfRange _ _ _, h.sent, fun _ _ _ h' => absurd h' Config.exchange_ne_reading,
    fun st' p' h' => ?_, h.fin⟩
  obtain ⟨rfl, rfl⟩ := Config.exchange_current h'
  exact (h.stage st' p' hc).frame rfl

theorem Progress.written (h : Progress cfg t) {st : Stage} {p : List UInt8} {attempt : ℕ}
    (hc : t.up.state = .writing st p attempt) :
    Progress cfg { t with up := { t.up with state := .reading st p attempt, sent := t.up.sent ++ [p] } } := by
  have hreached := h.stage st p (by simp [hc, State.current])
  have hnext : ∀ (st' : Stage) (p' : List UInt8),
      (State.reading st p attempt).current = some (st', p') → st' = st ∧ p' = p := by
    intro st' p' h'
    simpa [State.current, eq_comm] using h'
  refine ⟨by simp, fun q hq => List.mem_append_left _ (h.sent q hq), fun st' p' a h' => ?_, fun st' p' h' => ?_,
    fun hf => ?_⟩
  · obtain ⟨-, rfl, -⟩ := State.reading.inj h'
    simp
  · obtain ⟨rfl, rfl⟩ := hnext st' p' h'
    cases st' with
    | wrq =>
      obtain ⟨rfl, hans, hfin⟩ := hreached
      exact ⟨rfl, hans, by simp [hfin, (encodeWRQ_ne_encodeTag _ _ _).symm]⟩
    | data seq blk =>
      obtain ⟨rfl, hblk, hpos, hlt, hans, hfin⟩ := hreached
      exact ⟨rfl, hblk, hpos, hlt, hans, by simp [hfin, (encodeDATA_ne_encodeTag _ _ _).symm]⟩
    | fin => exact hreached
  · rw [List.mem_append, List.mem_singleton] at hf
    obtain hf | rfl := hf
    · exact h.fin hf
    · cases st with
      | wrq => exact absurd hreached.1 (encodeWRQ_ne_encodeTag _ _ _).symm
      | data seq blk => exact absurd hreached.1 (encodeDATA_ne_encodeTag _ _ _).symm
      | fin => exact hreached.2

theorem Progress.exited (h : Progress cfg t) {st : Stage} {p : List UInt8} {attempt : ℕ}
    (hc : t.up.state = .reading st p attempt) (reply : List UInt8) (received : List (List UInt8)) {o : Outcome}
    (ho : o ≠ .indexOutOfRange) :
    Progress cfg { t.note p reply st with up := ⟨.exited o, t.up.sent, received⟩ } := by
  have hreached := h.stage st p (by simp [hc, State.current])
  refine ⟨by simpa using ho, fun q hq => ?_, by simp, by simp [State.current], fun hf => ?_⟩
  · cases st with
    | wrq => exact h.sent q hq
    | data seq blk =>
      simp only [note] at hq
      split_ifs at hq
      · rw [List.mem_append, List.mem_singleton] at hq
        obtain hq | rfl := hq
        · exact h.sent q hq
        · exact h.reading _ _ _ hc
      · exact h.sent q hq
    | fin => exact h.sent q hq
  · cases st with
    | wrq => exact absurd hf hreached.2.2
    | data seq blk => exact absurd hf hreached.2.2.2.2.2
    | fin => exact hreached.2

theorem Progress.accepted (h : Progress cfg t) {st : Stage} {p reply : List UInt8} {attempt : ℕ}
    (hc : t.up.state = .reading st p attempt) (received : List (List UInt8)) :
    Progress cfg { t.note p reply st with up := ⟨cfg.handle reply st, t.up.sent, received⟩ } := by
  have hreached := h.stage st p (by simp [hc, State.current])
  obtain ⟨o, ho, -, hrange⟩ | ⟨rfl, hpos, hh⟩ | ⟨seq, blk, rfl, hst, hh⟩ | ⟨rfl, -, hh⟩ := cfg.handle_cases reply st
  · rw [ho]
    exact h.exited hc reply received hrange
  · rw [hh]
    obtain ⟨-, hans, hfin⟩ := hreached
    refine ⟨Config.sendBlock_ne_indexOutOfRange hpos _, h.sent, fun _ _ _ h' => absurd h' Config.sendBlock_ne_reading,
      fun st' p' h' => ?_, fun hf => absurd hf hfin⟩
    exact reached_sendBlock hpos UInt32.zero_le hans hfin h'
  · obtain ⟨rfl, hblk, hpos, hlt, hans, hfin⟩ := hreached
    have hseq := toNat_succ hlt
    have hle : seq + 1 ≤ cfg.nblocks blk := by
      rw [UInt32.le_iff_toNat_le, hseq]
      exact UInt32.lt_iff_toNat_lt.mp hlt
    simp only [note, hst, ↓reduceIte]
    rw [hh, hans, ← Config.dataBlocks_succ, ← hseq, hblk]
    refine ⟨Config.sendBlock_ne_indexOutOfRange hpos _, fun q hq => ?_,
      fun _ _ _ h' => absurd h' Config.sendBlock_ne_reading, fun st' p' h' => ?_, fun hf => absurd hf hfin⟩
    · rw [hseq, Config.dataBlocks_succ, ← hans, List.mem_append, List.mem_singleton] at hq
      obtain hq | rfl := hq
      · exact h.sent q hq
      · exact h.reading _ _ _ hc
    · exact reached_sendBlock hpos hle rfl hfin h'
  · rw [hh]
    exact h.exited hc reply received (by simp)

theorem progress_step {e : SockEvent} (h : Progress cfg t) : Progress cfg (t.step cfg e) := by
  cases e with
  | written =>
    cases hs : t.up.state with
    | writing st p attempt => simpa only [step, observe, Uploader.step, hs] using h.written hs
    | _ => simpa only [step, observe, Uploader.step, hs] using h
  | unreachable =>
    cases hs : t.up.state with
    | writing st p attempt =>
      simpa only [step, observe, Uploader.step, hs] using h.retry (by rw [hs]; rfl) (attempt + 1)
    | _ => simpa only [step, observe, Uploader.step, hs] using h
  | readFailed =>
    cases hs : t.up.state with
    | reading st p attempt =>
      simpa only [step, observe, Uploader.step, hs] using h.retry (by rw [hs]; rfl) (attempt + 1)
    | _ => simpa only [step, observe, Uploader.step, hs] using h
  | datagram src d =>
    cases hs : t.up.state with
    | reading st p attempt =>
      by_cases hacc : st.accepts (d.take 2048) = true
      · simpa only [step, observe, Uploader.step, hs, hacc, ↓reduceIte] using
          h.accepted hs (t.up.received ++ [d.take 2048])
      · have hdrain : Progress cfg
            { t with up := ⟨.reading st p attempt, t.up.sent, t.up.received ++ [d.take 2048]⟩ } :=
          ⟨by simp, h.sent, fun st' p' a h' => h.reading st' p' a (hs.trans h'),
            fun st' p' h' => (h.stage st' p' (hs ▸ h')).frame rfl, h.fin⟩
        simpa only [step, observe, Uploader.step, hs, hacc, Bool.false_eq_true, ↓reduceIte] using hdrain
    | _ => simpa only [step, observe, Uploader.step, hs] using h

theorem Progress.complete_iff (h : Progress cfg t) {blk : UInt32} (hpos : 1 ≤ blk.toNat)
    (hans : t.answered = cfg.dataBlocks blk (cfg.nblocks blk).toNat) :
    t.Complete cfg blk ↔ cfg.img.length + blk.toNat - 1 < 2 ^ 32 := by
  have hn := (cfg.nblocks blk).toNat_lt.le
  have hblk := blk.toNat_lt
  have htotal : cfg.total.toNat = cfg.img.length % 2 ^ 32 := UInt32.toNat_ofNat'
  constructor
  · intro hall
    by_cases hempty : cfg.img.length = 0
    · omega
    -- the last byte of the image is in some block, so the rounded block count did not wrap
    obtain ⟨seq, c, -, hmem, hle, hget⟩ := hall (cfg.img.length - 1) (by omega)
    rw [hans, Config.mem_dataBlocks hn] at hmem
    obtain ⟨hlt, rfl⟩ := hmem
    rw [Config.getElem?_content] at hget
    split_ifs at hget with hin
    swap
    · have := List.getElem?_eq_none_iff.mp hget.symm
      omega
    have hcover : seq.toNat * blk.toNat + blk.toNat ≤ (cfg.total.toNat + blk.toNat - 1) % 2 ^ 32 := by
      have hstep := Nat.mul_le_mul_right blk.toNat hlt
      rw [Nat.succ_mul] at hstep
      exact hstep.trans (Config.nblocks_mul_le hpos)
    omega
  · intro hsmall i hi
    have hfits : cfg.Fits blk := ⟨hpos, hsmall⟩
    have hk : i / blk.toNat < (cfg.nblocks blk).toNat :=
      Nat.div_lt_of_lt_mul (Nat.mul_comm _ _ ▸ hi.trans_le hfits.le_nblocks_mul)
    have hseq : (UInt32.ofNat (i / blk.toNat)).toNat = i / blk.toNat := by
      rw [UInt32.toNat_ofNat']
      exact Nat.mod_eq_of_lt (by omega)
    have hmem : encodeDATA (UInt32.ofNat (i / blk.toNat)) (cfg.content blk (i / blk.toNat)) ∈ t.answered := by
      rw [hans, Config.mem_dataBlocks hn, hseq]
      exact ⟨hk, rfl⟩
    have hle := Nat.div_mul_le_self i blk.toNat
    have hmod := Nat.mod_lt i hpos
    have hdiv := Nat.div_add_mod i blk.toNat
    rw [Nat.mul_comm] at hdiv
    refine ⟨_, _, h.sent _ hmem, hmem, by rwa [hseq], ?_⟩
    rw [hseq, Config.getElem?_content, if_pos (by rw [hfits.total]; omega)]
    congr 1
    omega

end Transfer

/-- FIN follows a complete transfer exactly when the image and the block size the device named fit the
32-bit block count; no slice expression panics in any case. -/
theorem fin_after_complete_transfer_iff (cfg : Config) (es : List SockEvent)
    (hl : (transferMachine cfg).Legal (.start cfg) es) :
    let t := (transferMachine cfg).run (.start cfg) es
    t.up.state ≠ .exited .indexOutOfRange ∧
      (encodeTag tagFIN ∈ t.up.sent → ∃ blk, t.blk = some blk ∧ blk ≠ 0 ∧
        (t.Complete cfg blk ↔ cfg.img.length + blk.toNat - 1 < 2 ^ 32)) := by
  intro t
  have h : t.Progress cfg :=
    Machine.invariant (M := transferMachine cfg) (fun _ _ _ h => Transfer.progress_step h)
      Transfer.progress_start hl
  refine ⟨h.inRange, fun hf => ?_⟩
  obtain ⟨blk, hblk, hpos, hans⟩ := h.fin hf
  refine ⟨blk, hblk, fun hzero => ?_, h.complete_iff hpos hans⟩
  subst hzero
  exact absurd hpos (by decide)

theorem fin_after_complete_transfer_one_block :
    let cfg : Config := ⟨[7], 20⟩
    let t := (transferMachine cfg).run (.start cfg)
      [.written, .datagram 0 (le32 tagAWRQ ++ le32 0 ++ le32 1), .written,
        .datagram 0 (le32 tagADAT ++ le32 0 ++ le32 0), .written]
    encodeTag tagFIN ∈ t.up.sent ∧ t.Complete cfg 1 := by
  intro cfg t
  have hfin : encodeTag tagFIN ∈ t.up.sent := by decide
  have hblk : t.blk = some 1 := by decide
  obtain ⟨-, h⟩ := fin_after_complete_transfer_iff cfg
    [.written, .datagram 0 (le32 tagAWRQ ++ le32 0 ++ le32 1), .written,
      .datagram 0 (le32 tagADAT ++ le32 0 ++ le32 0), .written] (by decide)
  obtain ⟨blk, hsome, -, hiff⟩ := h hfin
  obtain rfl : (1 : UInt32) = blk := Option.some.inj (hblk.symm.trans hsome)
  exact ⟨hfin, hiff.mpr (by decide)⟩

/-- A block size of `0xFFFFFFFF` makes the block count of a two-byte image wrap to 0. -/
theorem fin_without_data :
    let cfg : Config := ⟨[1, 2], 20⟩
    let es : List SockEvent := [.written, .datagram 0 (le32 tagAWRQ ++ le32 0 ++ le32 0xFFFFFFFF), .written]
    let t := (transferMachine cfg).run (.start cfg) es
    (transferMachine cfg).Legal (.start cfg) es ∧ t.blk = some 0xFFFFFFFF ∧
      t.up.sent = [encodeWRQ cfg.total cfg.crc, encodeTag tagFIN] ∧ ¬ t.Complete cfg 0xFFFFFFFF := by
  intro cfg es t
  have hans : t.answered = [] := by decide
  refine ⟨by decide, by decide, by decide +kernel, fun h => ?_⟩
  obtain ⟨seq, c, -, hmem, -⟩ := h 0 (by decide)
  rw [hans] at hmem
  exact absurd hmem List.not_mem_nil

end LogoCore.Upload
