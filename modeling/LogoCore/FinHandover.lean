import LogoCore.CompleteTransfer
import LogoCore.ToolTermination

namespace LogoCore.Upload

def RejectedFin (d : List UInt8) : Prop := u32At d 0 = (tagAFIN, true) ∧ (u32At d 4).1 ≠ stOK

instance (d : List UInt8) : Decidable (RejectedFin d) := inferInstanceAs (Decidable (_ ∧ _))

def Read.reply (size : ℕ) : Read → Option (List UInt8)
  | .failed => none
  | .datagram _ d => some (d.take size)

namespace Tool

def outcome (t : Tool) : Option Bool :=
  match t.phase with
  | .identWrite _ | .reboot | .upload (.writing _ _ _) => some t.written
  | _ => none

def reply (t : Tool) : Option (List UInt8) :=
  match t.phase with
  | .identRead _ => t.read.reply 64
  | .upload (.reading _ _ _) => t.read.reply 2048
  | _ => none

def event (t : Tool) : Option SockEvent :=
  match t.phase with
  | .upload (.writing _ _ _) => some (if t.written then .written else .unreachable)
  | .upload (.reading _ _ _) => some t.read.event
  | _ => none

def finishing (t : Tool) : Bool :=
  match t.phase with
  | .upload (.writing .fin _ _) | .upload (.reading .fin _ _) => true
  | _ => false

end Tool

namespace Tool

variable {S : Setup} {t : Tool}

theorem event_outside (h : ∀ s, t.phase ≠ .upload s) : t.event = none := by
  unfold event
  split <;> simp_all

theorem finishing_outside (h : ∀ s, t.phase ≠ .upload s) : t.finishing = false := by
  unfold finishing
  split <;> simp_all

theorem afterIdent_stopped {role : Option UInt32} {c : Caller} {code : ℕ}
    (h : afterIdent S role c = .stopped code) : code = exitNoLoader := by
  cases c with
  | ensureBootloader =>
    simp only [afterIdent, Setup.begin] at h
    split_ifs at h
  | afterReboot left =>
    cases left with
    | zero =>
      simp only [afterIdent, Setup.begin] at h
      split_ifs at h
      exact (Phase.stopped.inj h).symm
    | succ left =>
      simp only [afterIdent, Setup.begin] at h
      split_ifs at h
  | afterModbus left =>
    cases left <;> (simp only [afterIdent, Setup.begin] at h; split_ifs at h)

theorem step_outside (h : ∀ s, t.phase ≠ .upload s) (hstop : ∀ code, t.phase = .stopped code → code ≠ 0) :
    ((t.step S).phase = S.begin ∨ ∀ s, (t.step S).phase ≠ .upload s) ∧
      ∀ code, (t.step S).phase = .stopped code → code ≠ 0 := by
  have hident (role : Option UInt32) (c : Caller) (code : ℕ) (hc : afterIdent S role c = .stopped code) : code ≠ 0 := by
    rw [afterIdent_stopped hc]
    decide
  cases hp : t.phase with
  | identWrite c =>
    simp only [step, hp]
    split_ifs
    · simp
    · exact ⟨afterIdent_cases none c, hident none c⟩
  | identRead c =>
    simp only [step, hp]
    exact ⟨afterIdent_cases _ c, hident _ c⟩
  | reboot => simp [step, hp]
  | modbus =>
    simp only [step, hp, afterModbus]
    cases modbusReboot S.first S.polls with
    | locked =>
      refine ⟨.inr (by simp), fun code hc => ?_⟩
      obtain rfl := Phase.stopped.inj hc
      decide
    | accepted => simp
    | failed =>
      refine ⟨.inl rfl, fun code hc => ?_⟩
      cases hc
  | upload s => exact absurd hp (h s)
  | stopped code =>
    simp only [step, hp]
    exact ⟨.inr (by simp), hp ▸ hstop⟩

theorem step_inside {s : State} {e : SockEvent} (hp : t.phase = .upload s) (he : t.event = some e) :
    (t.step S).phase = .upload (Uploader.step S.cfg ⟨s, [], []⟩ e).state ∧
      (t.step S).sent = t.sent ++ (Uploader.step S.cfg ⟨s, [], []⟩ e).sent := by
  cases s with
  | writing st p a =>
    obtain rfl : _ = e := by simpa [event, hp] using he
    rw [step_writing hp]
    exact ⟨rfl, rfl⟩
  | reading st p a =>
    obtain rfl : _ = e := by simpa [event, hp] using he
    rw [step_reading hp]
    exact ⟨rfl, rfl⟩
  | exited o => simp [event, hp] at he

end Tool

structure Watched where
  tool : Tool
  transfer : Transfer
  outcomes : List Bool
  received : List (List UInt8)
  early : List (List UInt8)

namespace Watched

variable (S : Setup)

def start (writes : List Bool) (reads : List Read) : Watched := ⟨.start S writes reads, .start S.cfg, [], [], []⟩

def step (w : Watched) : Watched where
  tool := w.tool.step S
  transfer := w.tool.event.elim w.transfer (w.transfer.step S.cfg)
  outcomes := w.outcomes ++ w.tool.outcome.toList
  received := w.received ++ w.tool.reply.toList
  early := if w.tool.finishing then w.early else w.early ++ w.tool.reply.toList

def HandsFin (w : Watched) : Prop :=
  w.transfer.Finished S.cfg ∧ (w.tool.step S).sent = w.tool.sent ++ [encodeTag tagFIN]

end Watched

section Runs

variable (S : Setup) (writes : List Bool) (reads : List Read) (n : ℕ)

def watch : Watched := (Watched.step S)^[n] (.start S writes reads)

theorem watch_succ : watch S writes reads (n + 1) = (watch S writes reads n).step S :=
  Function.iterate_succ_apply' ..

theorem watch_tool : (watch S writes reads n).tool = (Tool.step S)^[n] (.start S writes reads) := by
  induction n with
  | zero => rfl
  | succ n ih => rw [watch_succ, Function.iterate_succ_apply', ← ih, Watched.step]

/-- FIN was handed to the network after the last block was acknowledged, and no AFIN with a non-zero status was
received. -/
structure ToldToFinish : Prop where
  sent : ∃ i < n, (watch S writes reads i).HandsFin S
  accepted : ∀ d ∈ (watch S writes reads n).received, ¬ RejectedFin d

/-- One of the last writes succeeded, as many as one exchange makes. -/
def LateWrite : Prop := true ∈ (watch S writes reads n).outcomes.reverse.take S.cfg.retries.toNat

/-- Neither `ident` nor an exchange before that of FIN reads an AFIN with a non-zero status. -/
def NoEarlyRejection : Prop := ∀ d ∈ (watch S writes reads n).early, ¬ RejectedFin d

instance : Decidable (LateWrite S writes reads n) := inferInstanceAs (Decidable (_ ∈ _))

instance : Decidable (NoEarlyRejection S writes reads n) := inferInstanceAs (Decidable (∀ d ∈ _, _))

end Runs

def Trail (cfg : Config) (told : Prop) (outcomes : List Bool) : State → Prop
  | .writing .fin _ a => ∃ f, f <:+ outcomes ∧ f.length = a ∧ a < cfg.retries ∧ (told ↔ true ∈ f)
  | .reading .fin _ a => ∃ f, f <:+ outcomes ∧ f.length = a + 1 ∧ a < cfg.retries ∧ told ∧ true ∈ f
  | .exited .noFinalAck => ∃ f, f <:+ outcomes ∧ f.length = cfg.retries.toNat ∧ (told ↔ true ∈ f)
  | .exited .verified => ∃ f, f <:+ outcomes ∧ f.length ≤ cfg.retries.toNat ∧ told ∧ true ∈ f
  | .exited (.finFailed _) => True
  | _ => ¬ told

section Trail

variable {cfg : Config} {told : Prop} {outcomes : List Bool}

theorem trail_exchange_fin {f : List Bool} {p : List UInt8} (hf : f <:+ outcomes) (hle : f.length ≤ cfg.retries.toNat)
    (htold : told ↔ true ∈ f) : Trail cfg told outcomes (cfg.exchange .fin p f.length) := by
  unfold Config.exchange
  split_ifs with hlt
  · exact ⟨f, hf, rfl, hlt, htold⟩
  · exact ⟨f, hf, by omega, htold⟩

theorem trail_exchange {st : Stage} {p : List UInt8} {a : ℕ} (hst : st ≠ .fin) (h : ¬ told) :
    Trail cfg told outcomes (cfg.exchange st p a) := by
  unfold Config.exchange
  split_ifs <;> cases st <;> first | exact h | exact absurd rfl hst

theorem trail_sendBlock {seq blk : UInt32} (h : ¬ told) : Trail cfg told outcomes (cfg.sendBlock seq blk) := by
  unfold Config.sendBlock
  split_ifs
  · cases cfg.chunk seq blk with
    | none => exact h
    | some c => exact trail_exchange nofun h
  · exact trail_exchange_fin (f := []) List.nil_suffix (Nat.zero_le _) (by simp [h])

theorem trail_handle {st : Stage} {reply : List UInt8} (hst : st ≠ .fin) (h : ¬ told) :
    Trail cfg told outcomes (cfg.handle reply st) := by
  cases st with
  | wrq =>
    simp only [Config.handle]
    split_ifs
    · exact h
    · exact h
    · exact trail_sendBlock h
  | data seq blk =>
    simp only [Config.handle]
    split_ifs
    · exact h
    · exact trail_sendBlock h
  | fin => exact absurd rfl hst

theorem Trail.not_told {st : Stage} {p : List UInt8} {s : State} (h : Trail cfg told outcomes s)
    (hc : s.current = some (st, p)) (hst : st ≠ .fin) : ¬ told := by
  cases s with
  | writing st' q a =>
    obtain ⟨rfl, -⟩ : st' = st ∧ q = p := by simpa [State.current] using hc
    cases st' <;> first | exact h | exact absurd rfl hst
  | reading st' q a =>
    obtain ⟨rfl, -⟩ : st' = st ∧ q = p := by simpa [State.current] using hc
    cases st' <;> first | exact h | exact absurd rfl hst
  | exited o => simp [State.current] at hc

theorem Trail.told_iff {o : Outcome} (h : Trail cfg told outcomes (.exited o)) (ho : o.exitCode = 0) :
    told ↔ true ∈ outcomes.reverse.take cfg.retries.toNat := by
  have hlast {f : List Bool} (hf : f <:+ outcomes) (hle : f.length ≤ cfg.retries.toNat) :
      f.reverse <+: outcomes.reverse.take cfg.retries.toNat :=
    List.prefix_take_iff.mpr ⟨List.reverse_prefix.mpr hf, by simpa using hle⟩
  cases o with
  | noFinalAck =>
    obtain ⟨f, hf, hlen, htold⟩ := h
    have heq : f.reverse = outcomes.reverse.take cfg.retries.toNat :=
      (hlast hf hlen.le).eq_of_length_le (by simp [hlen])
    rw [htold, ← heq, List.mem_reverse]
  | verified =>
    obtain ⟨f, hf, hle, htold, hmem⟩ := h
    exact iff_of_true htold ((hlast hf hle).mem (List.mem_reverse.mpr hmem))
  | _ => simp [Outcome.exitCode] at ho

end Trail

namespace Uploader

theorem step_state (cfg : Config) {u v : Uploader} (h : u.state = v.state) (e : SockEvent) :
    (u.step cfg e).state = (v.step cfg e).state := by
  cases e <;> simp only [step, h] <;> split <;> simp_all

end Uploader

namespace Transfer

variable {cfg : Config} {t : Transfer}

theorem Progress.fin_iff (h : t.Progress cfg) {st : Stage} {p : List UInt8} (hc : t.up.state.current = some (st, p)) :
    p = encodeTag tagFIN ↔ st = .fin := by
  have hreached := h.stage st p hc
  cases st with
  | wrq => simpa using hreached.1 ▸ encodeWRQ_ne_encodeTag _ _ _
  | data seq blk => simpa using hreached.1 ▸ encodeDATA_ne_encodeTag _ _ _
  | fin => simpa using hreached.1

theorem not_finished_start (cfg : Config) : ¬ (start cfg).Finished cfg := by
  rintro ⟨blk, hblk, -⟩
  simp [start] at hblk

end Transfer

namespace Watched

variable {S : Setup} {told : Prop} {w : Watched}

/-- The tool and its transfer: before the transfer it has not stopped with 0; the last writes are those of the
FIN exchange, and a refusal that was not early has ended the run. -/
structure Inv (S : Setup) (told : Prop) (w : Watched) : Prop where
  progress : w.transfer.Progress S.cfg
  upload : ∀ s, w.tool.phase = .upload s → s = w.transfer.up.state
  before : (∀ s, w.tool.phase ≠ .upload s) → w.transfer = .start S.cfg
  stopped : ∀ code, w.tool.phase = .stopped code → code ≠ 0
  trail : Trail S.cfg told w.outcomes w.transfer.up.state
  early : ∀ d ∈ w.early, d ∈ w.received
  refused : (∃ st, w.transfer.up.state = .exited (.finFailed st)) ∨
    ∀ d ∈ w.received, RejectedFin d → d ∈ w.early

theorem trail_start (outcomes : List Bool) (h : ¬ told) :
    Trail S.cfg told outcomes (Transfer.start S.cfg).up.state := trail_exchange nofun h

theorem inv_start (writes : List Bool) (reads : List Read) : (start S writes reads).Inv S False := by
  refine ⟨Transfer.progress_start, fun s hs => ?_, fun _ => rfl, fun code hc => ?_, trail_start _ id, nofun, .inr nofun⟩
  all_goals
    unfold start Tool.start at *
    dsimp only at *
  · split_ifs at hs
    exact (Phase.upload.inj hs).symm
  · split_ifs at hc
    exact absurd hc nofun

theorem not_told_of_start {outcomes : List Bool} (h : Trail S.cfg told outcomes (Transfer.start S.cfg).up.state) :
    ¬ told := by
  change Trail S.cfg told outcomes (S.cfg.exchange _ _ _) at h
  unfold Config.exchange at h
  split_ifs at h <;> exact h

theorem early_step (hfin : w.tool.finishing = false) : (w.step S).early = w.early ++ w.tool.reply.toList := by
  simp [step, hfin]

theorem mem_early_step {d : List UInt8} (hd : d ∈ w.early) : d ∈ (w.step S).early := by
  simp only [step]
  split_ifs
  · exact hd
  · exact List.mem_append_left _ hd

theorem mem_early_of_step {d : List UInt8} (hd : d ∈ (w.step S).early) : d ∈ w.early ∨ d ∈ w.tool.reply.toList := by
  simp only [step] at hd
  split_ifs at hd
  · exact .inl hd
  · exact List.mem_append.mp hd

theorem Inv.outside (h : w.Inv S told) (hp : ∀ s, w.tool.phase ≠ .upload s) :
    (w.step S).Inv S (told ∨ w.HandsFin S) := by
  have hstart := h.before hp
  have htold : ¬ (told ∨ w.HandsFin S) := by
    rintro (ht | ⟨hf, -⟩)
    · exact not_told_of_start (hstart ▸ h.trail) ht
    · exact Transfer.not_finished_start S.cfg (hstart ▸ hf)
  have hevent : w.tool.event = none := Tool.event_outside hp
  have hfin : w.tool.finishing = false := Tool.finishing_outside hp
  have htransfer : (w.step S).transfer = .start S.cfg := by simp [step, hevent, hstart]
  have hearly : (w.step S).early = w.early ++ w.tool.reply.toList := early_step hfin
  obtain ⟨hphase, hstop⟩ := Tool.step_outside (S := S) hp h.stopped
  refine ⟨?_, fun s hs => ?_, fun _ => htransfer, hstop, ?_, fun d hd => ?_, ?_⟩
  · rw [htransfer]
    exact Transfer.progress_start
  · rw [htransfer]
    obtain hbegin | hnot := hphase
    · exact Phase.upload.inj (hs.symm.trans hbegin)
    · exact absurd hs (hnot s)
  · rw [htransfer]
    exact trail_start _ htold
  · exact List.mem_append.mpr ((mem_early_of_step hd).imp_left (h.early d))
  · right
    obtain ⟨st, hst⟩ | hrefused := h.refused
    · rw [hstart] at hst
      exact absurd (Config.exchange_exited hst) nofun
    · intro d hd hrej
      rw [hearly, List.mem_append]
      exact (List.mem_append.mp hd).imp_left fun hd => hrefused d hd hrej

theorem Inv.inside (h : w.Inv S told) {s : State} {e : SockEvent} (hp : w.tool.phase = .upload s)
    (he : w.tool.event = some e) {told' : Prop}
    (htrail : Trail S.cfg told' (w.step S).outcomes (w.transfer.step S.cfg e).up.state)
    (hrefused : (∃ st, (w.transfer.step S.cfg e).up.state = .exited (.finFailed st)) ∨
      ∀ d ∈ w.tool.reply, RejectedFin d → w.tool.finishing = false) : (w.step S).Inv S told' := by
  have hs := h.upload s hp
  have htransfer : (w.step S).transfer = w.transfer.step S.cfg e := by simp [step, he]
  have hphase : (w.step S).tool.phase = .upload (w.transfer.step S.cfg e).up.state := by
    rw [step, (Tool.step_inside hp he).1]
    exact congrArg _ (Uploader.step_state S.cfg hs e)
  refine ⟨?_, fun s' hs' => ?_, fun hnot => absurd hphase (hnot _), fun code hc => ?_, ?_, fun d hd => ?_, ?_⟩
  · rw [htransfer]
    exact Transfer.progress_step h.progress
  · rw [htransfer]
    exact Phase.upload.inj (hs'.symm.trans hphase)
  · exact absurd (hphase.symm.trans hc) nofun
  · rw [htransfer]
    exact htrail
  · exact List.mem_append.mpr ((mem_early_of_step hd).imp_left (h.early d))
  · rw [htransfer]
    obtain hfailed | hreply := hrefused
    · exact .inl hfailed
    · obtain ⟨st, hst⟩ | hold := h.refused
      · -- the run has ended, and no event is left
        rw [← hs] at hst
        subst hst
        simp [Tool.event, hp] at he
      · right
        intro d hd hrej
        obtain hd | hd := List.mem_append.mp hd
        · exact mem_early_step (hold d hd hrej)
        · rw [early_step (hreply d (Option.mem_toList.mp hd) hrej)]
          exact List.mem_append_right _ hd

theorem Inv.written (h : w.Inv S told) {st : Stage} {p : List UInt8} {a : ℕ}
    (hp : w.tool.phase = .upload (.writing st p a)) (hw : w.tool.written = true) :
    (w.step S).Inv S (told ∨ w.HandsFin S) := by
  have he : w.tool.event = some .written := by simp [Tool.event, hp, hw]
  have hs := h.upload _ hp
  have hstate : (w.transfer.step S.cfg .written).up.state = .reading st p a := by
    simp only [Transfer.step, Uploader.step, ← hs]
  have hout : (w.step S).outcomes = w.outcomes ++ [true] := by simp [step, Tool.outcome, hp, hw]
  have hsent : (w.tool.step S).sent = w.tool.sent ++ [p] := (Tool.step_inside hp he).2
  have hc : w.transfer.up.state.current = some (st, p) := by rw [← hs]; rfl
  have htrail := h.trail
  refine h.inside hp he ?_ (.inr (by simp [Tool.reply, hp]))
  rw [hstate, hout]
  by_cases hfin : st = .fin
  · subst hfin
    rw [← hs] at htrail
    obtain ⟨f, hf, hlen, hlt, -⟩ := htrail
    have hhands : w.HandsFin S := by
      obtain ⟨rfl, hdone⟩ := h.progress.stage _ _ hc
      exact ⟨hdone, hsent⟩
    exact ⟨f ++ [true], List.suffix_append_self_iff.mpr hf, by simp [hlen], hlt, .inr hhands, by simp⟩
  · have hnot : ¬ (told ∨ w.HandsFin S) := by
      rintro (ht | ⟨-, hfin'⟩)
      · exact htrail.not_told hc hfin ht
      · rw [hsent, List.append_cancel_left_eq, List.cons.injEq] at hfin'
        exact hfin ((h.progress.fin_iff hc).mp hfin'.1)
    cases st <;> first | exact hnot | exact absurd rfl hfin

theorem not_handsFin (h : (w.tool.step S).sent = w.tool.sent) : ¬ w.HandsFin S := by
  rintro ⟨-, hsent⟩
  simp [h] at hsent

theorem Inv.retry (h : w.Inv S told) {st : Stage} {p : List UInt8} {a : ℕ} {f : List Bool}
    (hc : w.transfer.up.state.current = some (st, p)) (hf : st = .fin → f <:+ (w.step S).outcomes ∧ f.length = a + 1 ∧
      a < S.cfg.retries ∧ (told ↔ true ∈ f)) :
    Trail S.cfg told (w.step S).outcomes (S.cfg.exchange st p (a + 1)) := by
  by_cases hfin : st = .fin
  · subst hfin
    obtain ⟨hsuffix, hlen, hlt, htold⟩ := hf rfl
    rw [← hlen]
    exact trail_exchange_fin hsuffix (by omega) htold
  · exact trail_exchange hfin (h.trail.not_told hc hfin)

theorem Inv.unreachable (h : w.Inv S told) {st : Stage} {p : List UInt8} {a : ℕ}
    (hp : w.tool.phase = .upload (.writing st p a)) (hw : w.tool.written = false) : (w.step S).Inv S told := by
  have he : w.tool.event = some .unreachable := by simp [Tool.event, hp, hw]
  have hs := h.upload _ hp
  have hstate : (w.transfer.step S.cfg .unreachable).up.state = S.cfg.exchange st p (a + 1) := by
    simp only [Transfer.step, Uploader.step, ← hs]
  have hout : (w.step S).outcomes = w.outcomes ++ [false] := by simp [step, Tool.outcome, hp, hw]
  have htrail := h.trail
  refine h.inside hp he ?_ (.inr (by simp [Tool.reply, hp]))
  rw [hstate]
  by_cases hfin : st = .fin
  · subst hfin
    rw [← hs] at htrail
    obtain ⟨f, hf, hlen, hlt, htold⟩ := htrail
    refine h.retry (f := f ++ [false]) (by rw [← hs]; rfl) fun _ => ⟨?_, by simp [hlen], hlt, by simp [htold]⟩
    rw [hout]
    exact List.suffix_append_self_iff.mpr hf
  · exact h.retry (f := []) (by rw [← hs]; rfl) fun hf => absurd hf hfin

-- the FIN exchange takes a refusal and fails; in another exchange a reply is early
theorem refused_reading {st : Stage} {p d : List UInt8} {a : ℕ} (hp : w.tool.phase = .upload (.reading st p a))
    (hreply : w.tool.reply = some d) :
    (∃ code, (if st.accepts d then S.cfg.handle d st else .reading st p a) = .exited (.finFailed code)) ∨
      ∀ b ∈ w.tool.reply, RejectedFin b → w.tool.finishing = false := by
  by_cases hfin : st = .fin
  · subst hfin
    by_cases hrej : RejectedFin d
    · have hacc : Stage.fin.accepts d = true := by simp [Stage.accepts, Stage.matches, hrej.1, Stage.wantTag]
      exact .inl ⟨_, by rw [if_pos hacc]; exact if_pos hrej.2⟩
    · right
      intro b hb hbrej
      rw [hreply] at hb
      exact absurd (Option.some.inj hb ▸ hbrej) hrej
  · right
    intro b _ _
    cases st <;> first | exact absurd rfl hfin | simp [Tool.finishing, hp]

theorem Inv.trail_reply (h : w.Inv S told) {st : Stage} {p : List UInt8} {a : ℕ}
    (hs : .reading st p a = w.transfer.up.state) (d : List UInt8) :
    Trail S.cfg told w.outcomes (if st.accepts d then S.cfg.handle d st else .reading st p a) := by
  have htrail := h.trail
  have hc : w.transfer.up.state.current = some (st, p) := by rw [← hs]; rfl
  split_ifs
  · by_cases hfin : st = .fin
    · subst hfin
      rw [← hs] at htrail
      obtain ⟨f, hf, hlen, hlt, htold, hmem⟩ := htrail
      simp only [Config.handle]
      split_ifs
      · trivial
      · exact ⟨f, hf, by omega, htold, hmem⟩
    · exact trail_handle hfin (htrail.not_told hc hfin)
  · rw [hs]
    exact htrail

theorem Inv.reading (h : w.Inv S told) {st : Stage} {p : List UInt8} {a : ℕ}
    (hp : w.tool.phase = .upload (.reading st p a)) : (w.step S).Inv S told := by
  have he : w.tool.event = some w.tool.read.event := by simp [Tool.event, hp]
  have hs := h.upload _ hp
  have hout : (w.step S).outcomes = w.outcomes := by simp [step, Tool.outcome, hp]
  cases hr : w.tool.read with
  | failed =>
    rw [hr] at he
    have hc : w.transfer.up.state.current = some (st, p) := by rw [← hs]; rfl
    have hstate : (w.transfer.step S.cfg .readFailed).up.state = S.cfg.exchange st p (a + 1) := by
      simp only [Transfer.step, Uploader.step, ← hs]
    refine h.inside hp he ?_ (.inr (by simp [Tool.reply, hp, hr, Read.reply]))
    rw [Read.event, hstate]
    by_cases hfin : st = .fin
    · subst hfin
      have htrail := h.trail
      rw [← hs] at htrail
      obtain ⟨f, hf, hlen, hlt, htold, hmem⟩ := htrail
      exact h.retry (f := f) hc fun _ => ⟨hout ▸ hf, hlen, hlt, iff_of_true htold hmem⟩
    · exact h.retry (f := []) hc fun hf => absurd hf hfin
  | datagram src d =>
    rw [hr] at he
    have hstate : (w.transfer.step S.cfg (.datagram src d)).up.state =
        if st.accepts (d.take 2048) then S.cfg.handle (d.take 2048) st else .reading st p a := by
      simp only [Transfer.step, Uploader.step, ← hs]
    have hreply : w.tool.reply = some (d.take 2048) := by simp [Tool.reply, hp, hr, Read.reply]
    refine h.inside hp he ?_ ?_ <;> rw [Read.event, hstate]
    · rw [hout]
      exact h.trail_reply hs _
    · exact refused_reading hp hreply

theorem Inv.step (h : w.Inv S told) : (w.step S).Inv S (told ∨ w.HandsFin S) := by
  have hsame (hsent : (w.tool.step S).sent = w.tool.sent) : (told ∨ w.HandsFin S) = told :=
    propext (or_iff_left (not_handsFin hsent))
  cases hp : w.tool.phase with
  | upload s =>
    cases s with
    | writing st p a =>
      cases hw : w.tool.written with
      | true => exact h.written hp hw
      | false =>
        rw [hsame (by simp [Tool.step_writing hp, hw, Tool.exchanged, Uploader.step])]
        exact h.unreachable hp hw
    | reading st p a =>
      rw [hsame ?_]
      · exact h.reading hp
      · rw [Tool.step_reading hp]
        cases w.tool.read <;> simp [Tool.exchanged, Read.event, Uploader.step]
    | exited o =>
      have hcode : w.tool.exitCode = some o.exitCode := by simp [Tool.exitCode, hp]
      have htool : w.tool.step S = w.tool := Tool.step_of_exitCode hcode
      have hstep : w.step S = w := by simp [Watched.step, htool, Tool.event, Tool.outcome, Tool.reply, hp]
      rw [hsame (by rw [htool]), hstep]
      exact h
  | _ => exact h.outside (by simp [hp])

end Watched

section Runs

variable (S : Setup) (writes : List Bool) (reads : List Read) (n : ℕ)

theorem inv_watch : (watch S writes reads n).Inv S (∃ i < n, (watch S writes reads i).HandsFin S) := by
  induction n with
  | zero =>
    have hnone : (∃ i < 0, (watch S writes reads i).HandsFin S) = False := by simp
    rw [hnone]
    exact Watched.inv_start writes reads
  | succ n ih =>
    have hlast : (∃ i < n + 1, (watch S writes reads i).HandsFin S) =
        ((∃ i < n, (watch S writes reads i).HandsFin S) ∨ (watch S writes reads n).HandsFin S) := by
      simp only [Nat.lt_succ_iff_lt_or_eq, or_and_right, exists_or, exists_eq_left]
    rw [hlast, watch_succ]
    exact ih.step

variable {S writes reads n}

theorem exited_of_exitCode (h : ((Tool.step S)^[n] (.start S writes reads)).exitCode = some 0) :
    ∃ o, (watch S writes reads n).transfer.up.state = .exited o ∧ o.exitCode = 0 := by
  have hinv := inv_watch S writes reads n
  rw [← watch_tool] at h
  cases hp : (watch S writes reads n).tool.phase with
  | upload s =>
    cases s with
    | exited o => exact ⟨o, (hinv.upload _ hp).symm, by simpa [Tool.exitCode, hp] using h⟩
    | _ => simp [Tool.exitCode, hp] at h
  | stopped code =>
    obtain rfl : code = 0 := by simpa [Tool.exitCode, hp] using h
    exact absurd rfl (hinv.stopped 0 hp)
  | _ => simp [Tool.exitCode, hp] at h

theorem handsFin_iff (h : ((Tool.step S)^[n] (.start S writes reads)).exitCode = some 0) :
    (∃ i < n, (watch S writes reads i).HandsFin S) ↔ LateWrite S writes reads n := by
  obtain ⟨o, ho, hcode⟩ := exited_of_exitCode h
  have htrail := (inv_watch S writes reads n).trail
  rw [ho] at htrail
  exact htrail.told_iff hcode

theorem accepted_iff (h : ((Tool.step S)^[n] (.start S writes reads)).exitCode = some 0) :
    (∀ d ∈ (watch S writes reads n).received, ¬ RejectedFin d) ↔ NoEarlyRejection S writes reads n := by
  have hinv := inv_watch S writes reads n
  constructor
  · exact fun hall d hd => hall d (hinv.early d hd)
  · intro hearly d hd hrej
    obtain ⟨st, hst⟩ | hrefused := hinv.refused
    · obtain ⟨o, ho, hcode⟩ := exited_of_exitCode h
      obtain rfl := State.exited.inj (hst.symm.trans ho)
      simp [Outcome.exitCode] at hcode
    · exact hearly d (hrefused d hd hrej) hrej

end Runs

end LogoCore.Upload
