import LogoCore.LoaderSync
import LogoCore.UploadSession

namespace LogoCore.Upload

open Channel

namespace Session

structure Tracks (cfg : Config) (blk : UInt32) (s : Session) (st : Stage) (p : List UInt8) : Prop where
  payload : cfg.Payload blk st p
  flow : Flow rank (cfg.Genuine blk st) s.toLoader
  sent : ∀ d ∈ s.toLoader, d ∈ s.uploader.sent
  synced : st ≠ .wrq ∨ s.toHost ≠ [] → Synced cfg blk st s.loader s.toLoader
  answers : st ≠ .fin → ∀ d ∈ s.toHost, Answers blk s.loader.expected d
  fresh : st ≠ .wrq → s.loader.expected = cfg.confirmed blk st ∨ p ∈ s.uploader.sent

structure Safe (cfg : Config) (blk : UInt32) (s : Session) : Prop where
  data : ∀ k c st attempt, s.uploader.state = .writing st (encodeDATA k c) attempt →
    (∀ c', encodeDATA k c' ∉ s.uploader.sent) → s.loader.stored = blocks cfg.img blk.toNat k.toNat
  fin : ∀ st attempt, s.uploader.state = .writing st (encodeTag tagFIN) attempt →
    s.loader.stored.flatten = cfg.img

variable {cfg : Config} {blk : UInt32} {s : Session} {st : Stage} {p : List UInt8}

theorem Tracks.data (h : Tracks cfg blk s st p) {k : UInt32} {c : List UInt8} (hp : p = encodeDATA k c)
    (hnew : ∀ c', encodeDATA k c' ∉ s.uploader.sent) : s.loader.stored = blocks cfg.img blk.toNat k.toNat := by
  cases st with
  | wrq => exact absurd (hp.symm.trans h.payload) (encodeDATA_ne_encodeWRQ _ _ _ _)
  | data seq b =>
    obtain ⟨-, -, hpay⟩ := h.payload
    obtain ⟨rfl, -⟩ := encodeDATA_inj (hp.symm.trans hpay)
    have hfirst : s.loader.expected = k.toNat :=
      (h.fresh (by simp)).resolve_right fun hsent => hnew c (hp ▸ hsent)
    rw [(h.synced (.inl (by simp))).stored, hfirst]
  | fin => exact absurd (hp.symm.trans h.payload) (encodeDATA_ne_encodeTag _ _ _)

theorem Tracks.fin (h : Tracks cfg blk s st p) (hfits : cfg.Fits blk) (hp : p = encodeTag tagFIN) :
    s.loader.stored.flatten = cfg.img := by
  cases st with
  | wrq => exact absurd (h.payload.symm.trans hp) (encodeWRQ_ne_encodeTag _ _ _)
  | data seq b =>
    obtain ⟨-, -, hpay⟩ := h.payload
    exact absurd (hpay.symm.trans hp) (encodeDATA_ne_encodeTag _ _ _)
  | fin =>
    have hsync := h.synced (.inl (by simp))
    have hall : s.loader.expected = (cfg.nblocks blk).toNat := le_antisymm hsync.high hsync.low
    rw [hsync.stored, hall, hfits.flatten]

theorem Tracks.written (h : Tracks cfg blk s st p) (attempt : ℕ) :
    Tracks cfg blk { s with uploader := { s.uploader with state := .reading st p attempt
                                                          sent := s.uploader.sent ++ [p] }
                            toLoader := s.toLoader ++ [p] } st p := by
  have hlast : ∀ d ∈ s.toLoader, rank d ≤ rank p := fun d hd => (h.flow.all d hd).rank_le h.payload
  refine ⟨h.payload, h.flow.push h.payload.genuine hlast, fun d hd => ?_, fun hs => ?_, h.answers,
    fun _ => .inr (by simp)⟩
  · obtain hd | hd := List.mem_append.mp hd
    · exact List.mem_append_left _ (h.sent d hd)
    · exact List.mem_append_right _ hd
  · have hsync := h.synced hs
    exact ⟨hsync.low, hsync.high, hsync.stored,
      hsync.flow.push ⟨h.payload.genuine, hsync.high.trans h.payload.reach_le⟩ hlast⟩

theorem Tracks.uploader (h : Tracks cfg blk s st p) {u : Uploader} (hu : u.sent = s.uploader.sent) :
    Tracks cfg blk { s with uploader := u } st p :=
  ⟨h.payload, h.flow, hu ▸ h.sent, h.synced, h.answers, hu ▸ h.fresh⟩

theorem Tracks.outbound (h : Tracks cfg blk s st p) (f : Fault) :
    Tracks cfg blk { s with toLoader := f.apply s.toLoader } st p := by
  refine ⟨h.payload, h.flow.fault f, fun d hd => h.sent d (mem_of_mem_apply hd), fun hs => ?_, h.answers, h.fresh⟩
  have hsync := h.synced hs
  exact ⟨hsync.low, hsync.high, hsync.stored, hsync.flow.fault f⟩

theorem Tracks.inbound (h : Tracks cfg blk s st p) {l : List (List UInt8)} (hl : ∀ d ∈ l, d ∈ s.toHost) :
    Tracks cfg blk { s with toHost := l } st p := by
  refine ⟨h.payload, h.flow, h.sent, fun hs => h.synced (hs.imp id fun hne hnil => ?_),
    fun hst d hd => h.answers hst d (hl d hd), h.fresh⟩
  obtain ⟨d, hd⟩ := List.exists_mem_of_ne_nil l hne
  exact absurd (hl d hd) (by simp [hnil])

theorem Tracks.synced_head (h : Tracks cfg blk s st p) (answer : List UInt8 → List UInt8) {d : List UInt8}
    {ds : List (List UInt8)} (hd : s.toLoader = d :: ds) :
    ∃ ld, Synced cfg blk st ld (d :: ds) ∧ ld.serve blk answer d = s.loader.serve blk answer d ∧
      (st ≠ .wrq ∨ s.toHost ≠ [] → ld = s.loader) := by
  by_cases hs : st ≠ .wrq ∨ s.toHost ≠ []
  · exact ⟨s.loader, hd ▸ h.synced hs, rfl, fun _ => rfl⟩
  · obtain rfl : st = .wrq := not_not.mp (not_or.mp hs).1
    have hflow := h.flow
    rw [hd] at hflow
    refine ⟨⟨0, []⟩, ⟨le_rfl, le_rfl, rfl, hflow.mono fun x _ hx => ⟨hx, Nat.zero_le _⟩⟩, ?_, fun h => absurd h hs⟩
    cases hflow.all d (by simp) with
    | wrq => rw [Loader.serve_encodeWRQ, Loader.serve_encodeWRQ]
    | data seq hseq => exact absurd hseq (Nat.not_lt_zero _)
    | fin hfin => exact absurd hfin (by simp)

theorem Tracks.serve (h : Tracks cfg blk s st p) (answer : List UInt8 → List UInt8) {d : List UInt8}
    {ds : List (List UInt8)} (hd : s.toLoader = d :: ds) :
    Tracks cfg blk { s with loader := (s.loader.serve blk answer d).1
                            toLoader := ds
                            toHost := s.toHost ++ [(s.loader.serve blk answer d).2] } st p := by
  obtain ⟨ld, hsync, hserve, hld⟩ := h.synced_head answer hd
  have hflow := h.flow
  have hsent := h.sent
  rw [hd] at hflow hsent
  rw [← hserve]
  refine ⟨h.payload, hflow.tail.mono fun x _ hx => hx.1, fun x hx => hsent x (List.mem_cons_of_mem _ hx),
    fun _ => hsync.serve answer, fun hst x hx => ?_, fun hst => ?_⟩
  · obtain hx | hx := List.mem_append.mp hx
    · have hsame := hld (.inr (List.ne_nil_of_mem hx))
      exact (h.answers hst x hx).mono (hsame ▸ hsync.expected_le answer)
    · exact List.mem_singleton.mp hx ▸ hsync.reply hst answer
  · have hfresh := h.fresh hst
    rw [← hld (.inl hst)] at hfresh
    obtain ⟨hsame, -⟩ | ⟨seq, rfl, hseq, hreach, hstore⟩ := hsync.head_cases answer
    · rwa [hsame]
    · -- the block is stored, so it is the one this exchange sends
      refine .inr (hfresh.elim (fun hexp => ?_) id)
      cases st with
      | wrq => exact absurd rfl hst
      | data k b =>
        obtain ⟨-, -, rfl⟩ := h.payload
        obtain rfl : seq = k := UInt32.toNat_inj.mp (hseq.trans hexp)
        exact hsent _ (by simp)
      | fin => exact absurd (hseq.trans hexp) hreach.ne

theorem tracks_sendBlock (hfits : cfg.Fits blk) {n : UInt32} (hn : n ≤ cfg.nblocks blk) {st' : Stage}
    (hsync : Synced cfg blk st' s.loader s.toLoader) (hst' : st' ≠ .fin) (hexp : s.loader.expected = n.toNat)
    (hreach : cfg.reach blk st' = n.toNat) (hsent : ∀ d ∈ s.toLoader, d ∈ s.uploader.sent)
    (hans : ∀ d ∈ s.toHost, Answers blk s.loader.expected d)
    (hc : (cfg.sendBlock n blk).current = some (st, p)) : Tracks cfg blk s st p := by
  obtain ⟨rfl, hlt, c, hchunk, rfl⟩ | ⟨rfl, hge, rfl⟩ := Config.sendBlock_current hc
  · have hcb : block cfg.img blk.toNat n.toNat = c := Option.some.inj ((hfits.chunk hlt).symm.trans hchunk)
    have hgen : ∀ d, cfg.Genuine blk st' d → cfg.Genuine blk (.data n blk) d :=
      fun d hd => hd.mono (hreach ▸ Nat.le_succ _) hst'
    exact ⟨⟨rfl, hlt, by rw [hcb]⟩, hsync.flow.mono fun d _ hd => hgen d hd.1, hsent,
      fun _ => ⟨hexp.ge, hexp.le.trans (Nat.le_succ _), hsync.stored,
        hsync.flow.mono fun d _ hd => ⟨hgen d hd.1, hd.2⟩⟩, fun _ => hans, fun _ => .inl hexp⟩
  · have hall : n.toNat = (cfg.nblocks blk).toNat := by
      rw [UInt32.lt_iff_toNat_lt] at hge
      have := UInt32.le_iff_toNat_le.mp hn
      omega
    have hgen : ∀ d, cfg.Genuine blk st' d → cfg.Genuine blk .fin d :=
      fun d hd => hd.mono (hreach.trans hall).le hst'
    exact ⟨rfl, hsync.flow.mono fun d _ hd => hgen d hd.1, hsent,
      fun _ => ⟨(hexp.trans hall).ge, (hexp.trans hall).le, hsync.stored,
        hsync.flow.mono fun d _ hd => ⟨hgen d hd.1, hd.2⟩⟩, fun hne => absurd rfl hne,
      fun _ => .inl (hexp.trans hall)⟩

theorem Tracks.accepted (h : Tracks cfg blk s st p) (hfits : cfg.Fits blk) {d : List UInt8} (hd : d ∈ s.toHost)
    (hacc : st.accepts (d.take 2048) = true) {st' : Stage} {p' : List UInt8}
    (hc : (cfg.handle (d.take 2048) st).current = some (st', p')) : Tracks cfg blk s st' p' := by
  cases st with
  | wrq =>
    have hans := h.answers (by simp)
    have hsync := h.synced (.inr (List.ne_nil_of_mem hd))
    rw [(hans d hd).take] at hacc hc
    rw [(hans d hd).accepted_wrq hacc] at hc
    obtain ⟨o, ho, -⟩ | ⟨-, -, hh⟩ | ⟨seq, b, hst, -⟩ | ⟨hst, -⟩ := cfg.handle_cases (awrq blk) .wrq
    · simp [ho, State.current] at hc
    · rw [hh, awrq, ← List.append_nil (le32 blk), u32At_eight] at hc
      have hzero : s.loader.expected = (0 : UInt32).toNat := Nat.le_zero.mp hsync.high
      exact tracks_sendBlock hfits (by simp) hsync (by simp) hzero rfl h.sent hans hc
    · simp at hst
    · simp at hst
  | data seq b =>
    have hans := h.answers (by simp)
    have hsync := h.synced (.inl (by simp))
    obtain ⟨rfl, hlt, -⟩ := h.payload
    rw [(hans d hd).take] at hacc hc
    have hexp : s.loader.expected = (seq + 1).toNat :=
      (le_antisymm hsync.high ((hans d hd).accepted_data hacc)).trans (toNat_succ hlt).symm
    obtain ⟨o, ho, -⟩ | ⟨hst, -⟩ | ⟨seq', b', hst, -, hh⟩ | ⟨hst, -⟩ := cfg.handle_cases d (.data seq b)
    · simp [ho, State.current] at hc
    · simp at hst
    · obtain ⟨rfl, rfl⟩ := Stage.data.inj hst
      rw [hh] at hc
      have hle : seq + 1 ≤ cfg.nblocks b := by
        rw [UInt32.le_iff_toNat_le, toNat_succ hlt]
        exact UInt32.lt_iff_toNat_lt.mp hlt
      exact tracks_sendBlock hfits hle hsync (by simp) hexp (toNat_succ hlt).symm h.sent hans hc
    · simp at hst
  | fin =>
    obtain ⟨o, ho, -⟩ | ⟨hst, -⟩ | ⟨seq', b', hst, -⟩ | ⟨-, -, hh⟩ := cfg.handle_cases (d.take 2048) .fin
    · simp [ho, State.current] at hc
    · simp at hst
    · simp at hst
    · simp [hh, State.current] at hc

def Tracked (cfg : Config) (blk : UInt32) (s : Session) : Prop :=
  ∀ st p, s.uploader.state.current = some (st, p) → Tracks cfg blk s st p

theorem tracked_start (ld : Loader) : Tracked cfg blk (start cfg ld) := by
  intro st p hc
  obtain ⟨rfl, rfl⟩ := Config.exchange_current hc
  exact ⟨rfl, .nil, by simp [start], fun h => by simp [start] at h, by simp [start], by simp⟩

theorem Tracked.safe (h : Tracked cfg blk s) (hfits : cfg.Fits blk) : Safe cfg blk s := by
  refine ⟨fun k c st attempt hs hnew => ?_, fun st attempt hs => ?_⟩
  · exact (h st _ (by rw [hs]; rfl)).data rfl hnew
  · exact (h st _ (by rw [hs]; rfl)).fin hfits rfl

theorem Tracked.retry (h : Tracked cfg blk s) (hc : s.uploader.state.current = some (st, p)) (attempt : ℕ) :
    Tracked cfg blk { s with uploader := { s.uploader with state := cfg.exchange st p attempt } } := by
  intro st' p' hc'
  obtain ⟨rfl, rfl⟩ := Config.exchange_current hc'
  exact (h st' p' hc).uploader rfl

theorem Tracked.read (h : Tracked cfg blk s) (hfits : cfg.Fits blk) {attempt : ℕ}
    (hs : s.uploader.state = .reading st p attempt) {d : List UInt8} {ds : List (List UInt8)}
    (hd : s.toHost = d :: ds) :
    Tracked cfg blk { s with uploader := s.uploader.step cfg (.datagram 0 d), toHost := ds } := by
  have hmem : d ∈ s.toHost := by simp [hd]
  have hrest : ∀ x ∈ ds, x ∈ s.toHost := fun x hx => by simp [hd, hx]
  have htracks := h st p (by rw [hs]; rfl)
  simp only [Uploader.step, hs]
  intro st' p' hc
  split_ifs at hc with hacc
  · exact ((htracks.accepted hfits hmem hacc hc).inbound hrest).uploader rfl
  · obtain ⟨rfl, rfl⟩ : st = st' ∧ p = p' := by simpa [State.current] using hc
    exact (htracks.inbound hrest).uploader rfl

theorem tracked_step (hfits : cfg.Fits blk) (answer : List UInt8 → List UInt8) {e : SessionEvent}
    (h : Tracked cfg blk s) : Tracked cfg blk (s.step cfg blk answer e) := by
  cases e with
  | written =>
    cases hs : s.uploader.state with
    | writing st p attempt =>
      simp only [step, Uploader.step, hs]
      intro st' p' hc
      obtain ⟨rfl, rfl⟩ : st = st' ∧ p = p' := by simpa [State.current] using hc
      exact (h st p (by rw [hs]; rfl)).written attempt
    | _ => simpa only [step, hs] using h
  | unreachable =>
    cases hs : s.uploader.state with
    | writing st p attempt => simpa only [step, Uploader.step, hs] using h.retry (by rw [hs]; rfl) (attempt + 1)
    | _ => simpa only [step, Uploader.step, hs] using h
  | readFailed =>
    cases hs : s.uploader.state with
    | reading st p attempt => simpa only [step, Uploader.step, hs] using h.retry (by rw [hs]; rfl) (attempt + 1)
    | _ => simpa only [step, Uploader.step, hs] using h
  | hostReads =>
    cases hd : s.toHost with
    | nil => simpa only [step, hd] using h
    | cons d ds =>
      simp only [step, hd]
      cases hs : s.uploader.state with
      | reading st p attempt => exact h.read hfits hs hd
      | _ =>
        simp only [Uploader.step, hs]
        exact fun st p hc => (h st p hc).inbound fun x hx => by simp [hd, hx]
  | loaderServes =>
    cases hd : s.toLoader with
    | nil => simpa only [step, hd] using h
    | cons d ds =>
      simp only [step, hd]
      exact fun st p hc => (h st p hc).serve answer hd
  | outbound f => exact fun st p hc => (h st p hc).outbound f
  | inbound f => exact fun st p hc => (h st p hc).inbound fun d => mem_of_mem_apply

end Session

theorem stop_and_wait_safe (cfg : Config) (blk : UInt32) (hfits : cfg.Fits blk)
    (answer : List UInt8 → List UInt8) (ld : Loader) (es : List SessionEvent)
    (hl : (sessionMachine cfg blk answer).Legal (.start cfg ld) es) :
    ((sessionMachine cfg blk answer).run (.start cfg ld) es).Safe cfg blk :=
  (Machine.invariant (M := sessionMachine cfg blk answer) (I := Session.Tracked cfg blk)
    (fun _ _ _ h => Session.tracked_step hfits answer h) (Session.tracked_start ld) hl).safe hfits

/-- A session with two WRQs in flight, a repeated DATA and a lost reply, up to the second block and to FIN. -/
theorem stop_and_wait_safe_retransmitted :
    let cfg : Config := ⟨[7, 8, 9], 20⟩
    let M := sessionMachine cfg 2 id
    let es : List SessionEvent := [.written, .readFailed, .written, .loaderServes, .hostReads, .written,
      .outbound (.duplicate 1), .loaderServes, .loaderServes, .inbound (.lose 0), .hostReads]
    let fs : List SessionEvent := [.written, .loaderServes, .loaderServes, .hostReads, .hostReads]
    let s := M.run (.start cfg ⟨5, [[1]]⟩) es
    let t := M.run (.start cfg ⟨5, [[1]]⟩) (es ++ fs)
    s.uploader.state = .writing (.data 1 2) (encodeDATA 1 [9]) 0 ∧ s.Safe cfg 2 ∧
      t.uploader.state = .writing .fin (encodeTag tagFIN) 0 ∧ t.Safe cfg 2 := by
  intro cfg M es fs s t
  have hfits : cfg.Fits 2 := ⟨by decide, by decide⟩
  exact ⟨by decide, stop_and_wait_safe cfg 2 hfits id _ es (by decide), by decide,
    stop_and_wait_safe cfg 2 hfits id _ (es ++ fs) (by decide)⟩

end LogoCore.Upload
