import LogoCore.Uploader

namespace LogoCore.Upload

def AdatOk (seq : UInt32) (d : List UInt8) : Prop :=
  u32At d 0 = (tagADAT, true) ∧ u32At d 4 = (seq, true) ∧ u32At d 8 = (stOK, true)

def AfinOk (d : List UInt8) : Prop := u32At d 0 = (tagAFIN, true) ∧ u32At d 4 = (stOK, true)

theorem u32At_of_le (d : List UInt8) (off : ℕ) (h : off + 4 ≤ d.length) :
    u32At d off = ((u32At d off).1, true) := by
  simp [u32At, Nat.not_lt.mpr h]

instance (seq : UInt32) (d : List UInt8) : Decidable (AdatOk seq d) := inferInstanceAs (Decidable (_ ∧ _ ∧ _))

instance (d : List UInt8) : Decidable (AfinOk d) := inferInstanceAs (Decidable (_ ∧ _))

def Stage.statusEnd : Stage → ℕ
  | .wrq => 0
  | .data _ _ => 12
  | .fin => 8

namespace Uploader

def Acked (u : Uploader) (seq : UInt32) : Prop := ∃ d ∈ u.received, AdatOk seq d

structure Confirmed (u : Uploader) : Prop where
  next : ∀ s t c, t.toNat = s.toNat + 1 → encodeDATA t c ∈ u.sent → u.Acked s
  fin : encodeTag tagFIN ∈ u.sent → ∀ s c, encodeDATA s c ∈ u.sent → u.Acked s
  verified : u.state = .exited .verified → ∃ d ∈ u.received, AfinOk d

def Explicit (u : Uploader) : SockEvent → Prop
  | .datagram _ d => ∀ st p attempt, u.state = .reading st p attempt →
      st.accepts (d.take 2048) = true → st.statusEnd ≤ (d.take 2048).length
  | _ => True

def Ready (cfg : Config) (u : Uploader) : Stage → List UInt8 → Prop
  | .wrq, p => p = encodeWRQ cfg.total cfg.crc ∧ encodeTag tagFIN ∉ u.sent ∧ ∀ t c, encodeDATA t c ∉ u.sent
  | .data seq blk, p => (∃ c, p = encodeDATA seq c) ∧ seq < cfg.nblocks blk ∧ encodeTag tagFIN ∉ u.sent ∧
      (∀ s, s.toNat < seq.toNat → u.Acked s) ∧ ∀ t c, encodeDATA t c ∈ u.sent → t.toNat ≤ seq.toNat
  | .fin, p => p = encodeTag tagFIN ∧ ∀ t c, encodeDATA t c ∈ u.sent → u.Acked t

structure Tracked (cfg : Config) (u : Uploader) : Prop where
  lower : ∀ t c, encodeDATA t c ∈ u.sent → ∀ s, s.toNat < t.toNat → u.Acked s
  fin : encodeTag tagFIN ∈ u.sent → ∀ t c, encodeDATA t c ∈ u.sent → u.Acked t
  stage : ∀ st p, u.state.current = some (st, p) → u.Ready cfg st p
  verified : u.state = .exited .verified → ∃ d ∈ u.received, AfinOk d

variable {cfg : Config} {u : Uploader}

theorem Tracked.confirmed (h : Tracked cfg u) : Confirmed u :=
  ⟨fun s t c ht hs => h.lower t c hs s (by omega), h.fin, h.verified⟩

theorem Ready.mono {v : Uploader} (hs : v.sent = u.sent)
    (hr : ∀ d ∈ u.received, d ∈ v.received) {st : Stage} {p : List UInt8} (h : u.Ready cfg st p) :
    v.Ready cfg st p := by
  have hack : ∀ s, u.Acked s → v.Acked s := fun s ⟨d, hd, hok⟩ => ⟨d, hr d hd, hok⟩
  cases st with
  | wrq =>
    simp only [Ready, hs]
    exact h
  | data seq blk =>
    obtain ⟨hp, hn, hf, ha, ht⟩ := h
    simp only [Ready, hs]
    exact ⟨hp, hn, hf, fun s hlt => hack s (ha s hlt), ht⟩
  | fin =>
    simp only [Ready, hs]
    exact ⟨h.1, fun t c htc => hack t (h.2 t c htc)⟩

theorem ready_sendBlock {seq blk : UInt32} (hfin : encodeTag tagFIN ∉ u.sent)
    (hack : ∀ s, s.toNat < seq.toNat → u.Acked s) (hle : ∀ t c, encodeDATA t c ∈ u.sent → t.toNat < seq.toNat)
    {st : Stage} {p : List UInt8} (h : (cfg.sendBlock seq blk).current = some (st, p)) : u.Ready cfg st p := by
  obtain ⟨rfl, hlt, c, -, rfl⟩ | ⟨rfl, -, rfl⟩ := Config.sendBlock_current h
  · exact ⟨⟨c, rfl⟩, hlt, hfin, hack, fun t c ht => (hle t c ht).le⟩
  · exact ⟨rfl, fun t c ht => hack t (hle t c ht)⟩

theorem tracked_start : Tracked cfg (start cfg) := by
  refine ⟨by simp [start], by simp [start], fun st p h => ?_, fun h => ?_⟩
  · obtain ⟨rfl, rfl⟩ := Config.exchange_current h
    exact ⟨rfl, by simp [start], by simp [start]⟩
  · exact absurd h (Config.exchange_ne_verified _ _ _)

theorem Tracked.retry (h : Tracked cfg u) {st : Stage} {p : List UInt8}
    (hc : u.state.current = some (st, p)) (attempt : ℕ) :
    Tracked cfg { u with state := cfg.exchange st p attempt } := by
  refine ⟨h.lower, h.fin, fun st' p' h' => ?_, fun hv => absurd hv (Config.exchange_ne_verified _ _ _)⟩
  obtain ⟨rfl, rfl⟩ := Config.exchange_current h'
  exact (h.stage st' p' hc).mono rfl fun _ => id

theorem Tracked.written (h : Tracked cfg u) {st : Stage} {p : List UInt8}
    {attempt : ℕ} (hc : u.state = .writing st p attempt) :
    Tracked cfg { u with state := .reading st p attempt, sent := u.sent ++ [p] } := by
  have hready := h.stage st p (by simp [hc, State.current])
  cases st with
  | wrq =>
    obtain ⟨rfl, hfin, hdata⟩ := hready
    have hdata' : ∀ t c, encodeDATA t c ∉ u.sent ++ [encodeWRQ cfg.total cfg.crc] := fun t c => by
      simp [hdata, encodeDATA_ne_encodeWRQ]
    have hfin' : encodeTag tagFIN ∉ u.sent ++ [encodeWRQ cfg.total cfg.crc] := by
      simp [hfin, (encodeWRQ_ne_encodeTag _ _ _).symm]
    refine ⟨fun t c ht => absurd ht (hdata' t c), fun hf => absurd hf hfin', fun st' p' h' => ?_, by simp⟩
    obtain ⟨rfl, rfl⟩ : Stage.wrq = st' ∧ _ = p' := by simpa [State.current] using h'
    exact ⟨rfl, hfin', hdata'⟩
  | data seq blk =>
    obtain ⟨⟨c, rfl⟩, hlt, hfin, hack, hle⟩ := hready
    have hfin' : encodeTag tagFIN ∉ u.sent ++ [encodeDATA seq c] := by
      simp [hfin, (encodeDATA_ne_encodeTag _ _ _).symm]
    have hmem : ∀ t d, encodeDATA t d ∈ u.sent ++ [encodeDATA seq c] → encodeDATA t d ∈ u.sent ∨ t = seq := by
      intro t d ht
      rw [List.mem_append, List.mem_singleton] at ht
      exact ht.imp id fun heq => (encodeDATA_inj heq).1
    refine ⟨fun t d ht s hs => ?_, fun hf => absurd hf hfin', fun st' p' h' => ?_, by simp⟩
    · obtain ht | rfl := hmem t d ht
      · exact h.lower t d ht s hs
      · exact hack s hs
    · obtain ⟨rfl, rfl⟩ : Stage.data seq blk = st' ∧ _ = p' := by simpa [State.current] using h'
      refine ⟨⟨c, rfl⟩, hlt, hfin', hack, fun t d ht => ?_⟩
      obtain ht | rfl := hmem t d ht
      · exact hle t d ht
      · exact le_rfl
  | fin =>
    obtain ⟨rfl, hack⟩ := hready
    have hmem : ∀ t d, encodeDATA t d ∈ u.sent ++ [encodeTag tagFIN] → encodeDATA t d ∈ u.sent := by
      intro t d ht
      simpa [encodeDATA_ne_encodeTag] using ht
    refine ⟨fun t d ht => h.lower t d (hmem t d ht), fun _ t d ht => hack t d (hmem t d ht), fun st' p' h' => ?_,
      by simp⟩
    obtain ⟨rfl, rfl⟩ : Stage.fin = st' ∧ _ = p' := by simpa [State.current] using h'
    exact ⟨rfl, fun t d ht => hack t d (hmem t d ht)⟩

theorem Tracked.drained (h : Tracked cfg u) (reply : List UInt8) :
    Tracked cfg { u with received := u.received ++ [reply] } := by
  have hsub : ∀ d ∈ u.received, d ∈ u.received ++ [reply] := fun d hd => List.mem_append_left _ hd
  have hack : ∀ s, u.Acked s → ({ u with received := u.received ++ [reply] } : Uploader).Acked s :=
    fun s ⟨d, hd, hok⟩ => ⟨d, hsub d hd, hok⟩
  refine ⟨fun t c ht s hs => hack s (h.lower t c ht s hs), fun hf t c ht => hack t (h.fin hf t c ht),
    fun st p hc => ?_, fun hv => ?_⟩
  · exact Ready.mono (u := u) (v := { u with received := u.received ++ [reply] }) rfl hsub (h.stage st p hc)
  · obtain ⟨d, hd, hok⟩ := h.verified hv
    exact ⟨d, hsub d hd, hok⟩

theorem Tracked.datagram (h : Tracked cfg u) {st : Stage} {p reply : List UInt8}
    {attempt : ℕ} (hc : u.state = .reading st p attempt)
    (hlen : st.accepts reply = true → st.statusEnd ≤ reply.length) :
    Tracked cfg { u with state := if st.accepts reply then cfg.handle reply st else u.state
                         received := u.received ++ [reply] } := by
  have hd := h.drained reply
  split_ifs with hacc
  · have hready := hd.stage st p (by simp [hc, State.current])
    obtain ⟨o, ho, hne, -⟩ | ⟨rfl, -, hh⟩ | ⟨seq, blk, rfl, hst, hh⟩ | ⟨rfl, hst, hh⟩ := cfg.handle_cases reply st
    · refine ⟨hd.lower, hd.fin, fun st' p' h' => ?_, fun hv => ?_⟩
      · simp [ho, State.current] at h'
      · rw [ho] at hv
        exact absurd (State.exited.inj hv) hne
    · obtain ⟨-, hfin, hdata⟩ := hready
      refine ⟨hd.lower, hd.fin, fun st' p' h' => ?_, fun hv => ?_⟩
      · rw [hh] at h'
        exact (ready_sendBlock hfin (fun s hs => absurd hs (by simp)) (fun t c ht => absurd ht (hdata t c)) h').mono
          rfl fun _ => id
      · exact absurd (hh.symm.trans hv) (Config.sendBlock_ne_verified _ _)
    · obtain ⟨-, hlt, hfin, hack, hle⟩ := hready
      have hok := u32At_of_le reply 8 (hlen hacc)
      rw [hst] at hok
      have hseq := toNat_succ hlt
      have hnow : ({ u with received := u.received ++ [reply] } : Uploader).Acked seq :=
        ⟨reply, by simp, Stage.accepts_tag hacc, Stage.accepts_seq hacc, hok⟩
      refine ⟨hd.lower, hd.fin, fun st' p' h' => ?_, fun hv => ?_⟩
      · rw [hh] at h'
        refine (ready_sendBlock hfin (fun s hs => ?_) (fun t c ht => ?_) h').mono rfl fun _ => id
        · obtain hs | hs := Nat.lt_succ_iff_lt_or_eq.mp (hseq ▸ hs)
          · exact hack s hs
          · exact UInt32.toNat_inj.mp hs ▸ hnow
        · have := hle t c ht
          omega
      · exact absurd (hh.symm.trans hv) (Config.sendBlock_ne_verified _ _)
    · refine ⟨hd.lower, hd.fin, fun st' p' h' => ?_, fun _ => ?_⟩
      · simp [hh, State.current] at h'
      · have hok := u32At_of_le reply 4 (hlen hacc)
        rw [hst] at hok
        exact ⟨reply, by simp, Stage.accepts_tag hacc, hok⟩
  · exact hd

theorem tracked_step {e : SockEvent} (he : u.Explicit e) (h : Tracked cfg u) :
    Tracked cfg (u.step cfg e) := by
  cases e with
  | written =>
    cases hs : u.state with
    | writing st p attempt => simpa only [step, hs] using h.written hs
    | _ => simpa only [step, hs] using h
  | unreachable =>
    cases hs : u.state with
    | writing st p attempt => simpa only [step, hs] using h.retry (by rw [hs]; rfl) (attempt + 1)
    | _ => simpa only [step, hs] using h
  | readFailed =>
    cases hs : u.state with
    | reading st p attempt => simpa only [step, hs] using h.retry (by rw [hs]; rfl) (attempt + 1)
    | _ => simpa only [step, hs] using h
  | datagram src d =>
    cases hs : u.state with
    | reading st p attempt =>
      have hd := h.datagram hs (he st p attempt hs)
      simpa only [step, hs] using hd
    | _ => simpa only [step, hs] using h

end Uploader

def explicitMachine (cfg : Config) : Machine Uploader SockEvent :=
  ⟨fun u e => u.Enabled e ∧ u.Explicit e, Uploader.step cfg⟩

theorem explicit_ack_confirmed (cfg : Config) (es : List SockEvent)
    (hl : (explicitMachine cfg).Legal (.start cfg) es) :
    ((explicitMachine cfg).run (.start cfg) es).Confirmed :=
  (Machine.invariant (M := explicitMachine cfg) (I := Uploader.Tracked cfg)
    (fun _ _ he h => Uploader.tracked_step he.2 h) Uploader.tracked_start hl).confirmed

theorem explicit_ack_confirmed_one_block :
    let cfg : Config := ⟨[7], 20⟩
    let u := (explicitMachine cfg).run (.start cfg)
      [.written, .datagram 0 (le32 tagAWRQ ++ le32 0 ++ le32 1), .written,
        .datagram 0 (le32 tagADAT ++ le32 0 ++ le32 0), .written,
        .datagram 0 (le32 tagAFIN ++ le32 0 ++ le32 0)]
    u.state = .exited .verified ∧ u.Confirmed := by
  intro cfg u
  have hexp (v : Uploader) (t a b : UInt32) : v.Explicit (.datagram 0 (le32 t ++ le32 a ++ le32 b)) := by
    intro st p attempt hv hacc
    have hlen : ((le32 t ++ le32 a ++ le32 b).take 2048).length = 12 := by simp
    rw [hlen]
    cases st <;> simp [Stage.statusEnd]
  refine ⟨by decide, explicit_ack_confirmed cfg _
    ⟨⟨by decide, trivial⟩, ⟨by decide, hexp _ _ _ _⟩, ⟨by decide, trivial⟩, ⟨by decide, hexp _ _ _ _⟩,
      ⟨by decide, trivial⟩, ⟨by decide, hexp _ _ _ _⟩, trivial⟩⟩

/-- An ADAT without a status word and an AFIN that is only a tag are taken as OK. -/
theorem short_ack_taken_as_ok :
    let cfg : Config := ⟨[7], 20⟩
    let es : List SockEvent := [.written, .datagram 0 (le32 tagAWRQ ++ le32 0 ++ le32 1), .written,
      .datagram 0 (le32 tagADAT ++ le32 0), .written, .datagram 0 (le32 tagAFIN)]
    let u := (uploadMachine cfg).run (.start cfg) es
    (uploadMachine cfg).Legal (.start cfg) es ∧
      (encodeTag tagFIN ∈ u.sent ∧ encodeDATA 0 [7] ∈ u.sent ∧ ∀ d ∈ u.received, ¬ AdatOk 0 d) ∧
      (u.state = .exited .verified ∧ ∀ d ∈ u.received, ¬ AfinOk d) ∧ ¬ u.Confirmed := by
  intro cfg es u
  have hdata : ∀ d ∈ u.received, ¬ AdatOk 0 d := by decide
  have hsent : encodeTag tagFIN ∈ u.sent ∧ encodeDATA 0 [7] ∈ u.sent := by decide
  refine ⟨by decide, ⟨hsent.1, hsent.2, hdata⟩, by decide, fun h => ?_⟩
  obtain ⟨d, hd, hok⟩ := h.fin hsent.1 0 [7] hsent.2
  exact hdata d hd hok

end LogoCore.Upload
