import LogoCore.Iteration
import LogoCore.UploadTool

namespace LogoCore.Upload

namespace Config

variable (cfg : Config)

def pending : Stage → ℕ
  | .wrq => 2 ^ 32 + 2
  | .data seq blk => (cfg.nblocks blk).toNat - seq.toNat + 1
  | .fin => 1

def work : State → ℕ
  | .writing st _ a => cfg.pending st * (2 * cfg.retries.toNat + 2) + 2 * (cfg.retries.toNat - a) + 1
  | .reading st _ a => cfg.pending st * (2 * cfg.retries.toNat + 2) + 2 * (cfg.retries.toNat - a)
  | .exited _ => 0

def InRange (s : State) : Prop := ∀ seq blk p, s.current = some (.data seq blk, p) → seq < cfg.nblocks blk

variable {cfg} {st : Stage} {p : List UInt8}

theorem pending_pos (cfg : Config) (st : Stage) : 1 ≤ cfg.pending st := by
  cases st <;> simp [pending]

theorem work_exchange_le (cfg : Config) (st : Stage) (p : List UInt8) (a : ℕ) :
    cfg.work (cfg.exchange st p a) ≤
      cfg.pending st * (2 * cfg.retries.toNat + 2) + 2 * (cfg.retries.toNat - a) + 1 := by
  unfold exchange
  split_ifs <;> simp [work]

theorem work_retry (cfg : Config) (st : Stage) (p : List UInt8) (a : ℕ) :
    cfg.work (cfg.exchange st p (a + 1)) < cfg.work (.reading st p a) := by
  have hpos := cfg.pending_pos st
  unfold exchange
  split_ifs with h
  · simp only [work]
    omega
  · simp only [work]
    have := Nat.mul_le_mul_right (2 * cfg.retries.toNat + 2) hpos
    omega

theorem work_next {st' : Stage} {p' : List UInt8} (a : ℕ) (h : cfg.pending st' < cfg.pending st) :
    cfg.work (cfg.exchange st' p' 0) < cfg.work (.reading st p a) := by
  have hle := cfg.work_exchange_le st' p' 0
  have hmul := Nat.mul_le_mul_right (2 * cfg.retries.toNat + 2) h
  rw [Nat.succ_mul] at hmul
  simp only [work] at hle ⊢
  omega

theorem work_sendBlock {seq blk : UInt32} (a : ℕ) (h : (cfg.nblocks blk).toNat - seq.toNat + 1 < cfg.pending st) :
    cfg.work (cfg.sendBlock seq blk) < cfg.work (.reading st p a) := by
  unfold sendBlock
  split_ifs with hlt
  · cases cfg.chunk seq blk with
    | none =>
      have := Nat.mul_le_mul_right (2 * cfg.retries.toNat + 2) (cfg.pending_pos st)
      simp only [work]
      omega
    | some c => exact work_next a h
  · apply work_next a
    simp only [pending] at h ⊢
    omega

theorem work_handle (reply : List UInt8) {a : ℕ} (hr : cfg.InRange (.reading st p a)) :
    cfg.work (cfg.handle reply st) < cfg.work (.reading st p a) := by
  have hexit : 0 < cfg.work (.reading st p a) := by
    have := Nat.mul_le_mul_right (2 * cfg.retries.toNat + 2) (cfg.pending_pos st)
    simp only [work]
    omega
  obtain ⟨o, ho, -⟩ | ⟨rfl, -, hh⟩ | ⟨seq, blk, rfl, -, hh⟩ | ⟨rfl, -, hh⟩ := cfg.handle_cases reply st
  · rw [ho]
    exact hexit
  · rw [hh]
    apply work_sendBlock
    have := (cfg.nblocks (u32At reply 8).1).toNat_lt
    simp only [pending, UInt32.reduceToNat]
    omega
  · have hlt := hr seq blk p rfl
    rw [hh]
    apply work_sendBlock
    have hseq := UInt32.lt_iff_toNat_lt.mp hlt
    simp only [pending, toNat_succ hlt]
    omega
  · rw [hh]
    exact hexit

theorem inRange_exchange {a b : ℕ} (h : cfg.InRange (.reading st p b)) : cfg.InRange (cfg.exchange st p a) := by
  intro seq blk q hc
  obtain ⟨rfl, rfl⟩ := exchange_current hc
  exact h seq blk q rfl

theorem inRange_sendBlock (seq blk : UInt32) : cfg.InRange (cfg.sendBlock seq blk) := by
  intro seq' blk' q hc
  obtain ⟨heq, hlt, -⟩ | ⟨heq, -⟩ := sendBlock_current hc
  · obtain ⟨rfl, rfl⟩ := Stage.data.inj heq
    exact hlt
  · cases heq

theorem inRange_handle (reply : List UInt8) (st : Stage) : cfg.InRange (cfg.handle reply st) := by
  obtain ⟨o, ho, -⟩ | ⟨-, -, hh⟩ | ⟨seq, blk, -, -, hh⟩ | ⟨-, -, hh⟩ := cfg.handle_cases reply st
  · rw [ho]
    exact nofun
  · rw [hh]
    exact inRange_sendBlock _ _
  · rw [hh]
    exact inRange_sendBlock _ _
  · rw [hh]
    exact nofun

theorem inRange_start : cfg.InRange (Uploader.start cfg).state := by
  intro seq blk q hc
  obtain ⟨heq, -⟩ := exchange_current hc
  cases heq

end Config

namespace Setup

variable (S : Setup)

def uploadWork : ℕ :=
  S.cfg.pending .wrq * (2 * S.cfg.retries.toNat + 2) + 2 * S.cfg.retries.toNat + 1

def phaseWork : Phase → ℕ
  | .identWrite .ensureBootloader => S.uploadWork + 86
  | .identRead .ensureBootloader => S.uploadWork + 85
  | .reboot | .modbus => S.uploadWork + 84
  | .identWrite (.afterReboot left) | .identWrite (.afterModbus left) => S.uploadWork + 2 * left + 2
  | .identRead (.afterReboot left) | .identRead (.afterModbus left) => S.uploadWork + 2 * left + 1
  | .upload s => S.cfg.work s
  | .stopped _ => 0

variable {S}

theorem phaseWork_begin : S.phaseWork S.begin ≤ S.uploadWork := S.cfg.work_exchange_le _ _ 0

theorem phaseWork_afterIdent (role : Option UInt32) (c : Caller) :
    S.phaseWork (Tool.afterIdent S role c) < S.phaseWork (.identRead c) := by
  have hbegin := phaseWork_begin (S := S)
  cases c with
  | ensureBootloader =>
    simp only [Tool.afterIdent]
    split_ifs <;> simp only [phaseWork] at * <;> omega
  | afterReboot left =>
    simp only [Tool.afterIdent]
    split_ifs
    · simp only [phaseWork] at *
      omega
    · cases left <;> simp only [phaseWork] <;> omega
  | afterModbus left =>
    simp only [Tool.afterIdent]
    split_ifs
    · simp only [phaseWork] at *
      omega
    · cases left <;> simp only [phaseWork] at * <;> omega

theorem phaseWork_identRead (c : Caller) : S.phaseWork (.identRead c) < S.phaseWork (.identWrite c) := by
  cases c <;> simp only [phaseWork] <;> omega

theorem phaseWork_afterModbus : S.phaseWork (Tool.afterModbus S) < S.phaseWork .modbus := by
  have hbegin := phaseWork_begin (S := S)
  unfold Tool.afterModbus
  cases modbusReboot S.first S.polls <;> simp only [phaseWork] at * <;> omega

end Setup

namespace Tool

variable {S : Setup}

def load (S : Setup) (t : Tool) : ℕ := S.phaseWork t.phase + t.reads.length

def InRange (S : Setup) (t : Tool) : Prop := ∀ s, t.phase = .upload s → S.cfg.InRange s

theorem inRange_of_phase {t : Tool} (h : t.phase = S.begin ∨ ∀ s, t.phase ≠ .upload s) : t.InRange S := by
  intro s hs
  obtain h | h := h
  · obtain rfl := Phase.upload.inj (hs.symm.trans h)
    exact Config.inRange_start
  · exact absurd hs (h s)

theorem afterIdent_cases (role : Option UInt32) (c : Caller) :
    afterIdent S role c = S.begin ∨ ∀ s, afterIdent S role c ≠ .upload s := by
  cases c with
  | ensureBootloader =>
    unfold afterIdent
    split_ifs <;> simp
  | afterReboot left =>
    cases left <;> (unfold afterIdent; split_ifs <;> simp)
  | afterModbus left =>
    cases left <;> (unfold afterIdent; split_ifs <;> simp)

theorem inRange_start (writes : List Bool) (reads : List Read) : (start S writes reads).InRange S := by
  apply inRange_of_phase
  unfold start
  split_ifs <;> simp

theorem inRange_step {t : Tool} (h : t.InRange S) : (t.step S).InRange S := by
  obtain ⟨phase, writes, reads, sent, roles⟩ := t
  rcases phase with c | c | _ | _ | (⟨st, p, a⟩ | ⟨st, p, a⟩ | o) | code
  case identWrite =>
    apply inRange_of_phase
    simp only [step]
    split_ifs
    · simp
    · exact afterIdent_cases none c
  case identRead => exact inRange_of_phase (afterIdent_cases _ c)
  case reboot => exact inRange_of_phase (.inr (by simp [step]))
  case modbus =>
    apply inRange_of_phase
    simp only [step, afterModbus]
    split <;> simp
  case upload.writing =>
    have hread : S.cfg.InRange (.reading st p a) := h (.writing st p a) rfl
    rintro s hs
    obtain rfl := Phase.upload.inj hs
    cases written _ with
    | true => exact hread
    | false => exact Config.inRange_exchange hread
  case upload.reading =>
    have hread : S.cfg.InRange (.reading st p a) := h _ rfl
    rintro s hs
    obtain rfl := Phase.upload.inj hs
    cases read _ with
    | failed => exact Config.inRange_exchange hread
    | datagram src d =>
      simp only [Read.event, Uploader.step]
      split_ifs
      · exact Config.inRange_handle _ _
      · exact hread
  case upload.exited => exact h
  case stopped => exact h

theorem load_step {t : Tool} (hr : t.InRange S) (h : t.exitCode = none) : (t.step S).load S < t.load S := by
  obtain ⟨phase, writes, reads, sent, roles⟩ := t
  have htail : reads.tail.length ≤ reads.length := by simp
  rcases phase with c | c | _ | _ | (⟨st, p, a⟩ | ⟨st, p, a⟩ | o) | code
  case identWrite =>
    have hread := Setup.phaseWork_identRead (S := S) c
    have hnone := Setup.phaseWork_afterIdent (S := S) none c
    simp only [step]
    split_ifs
    · simp only [load, write]
      omega
    · simp only [load, write, identified]
      omega
  case identRead =>
    have hid := Setup.phaseWork_afterIdent (S := S) (identReply (read ⟨.identRead c, writes, reads, sent, roles⟩)) c
    simp only [step, load, identified]
    omega
  case reboot =>
    simp only [step, load, write, Setup.phaseWork]
    omega
  case modbus =>
    have hmodbus := Setup.phaseWork_afterModbus (S := S)
    simp only [step, load]
    omega
  case upload.writing =>
    have hretry := S.cfg.work_retry st p a
    have hone : S.cfg.work (.reading st p a) < S.cfg.work (.writing st p a) := Nat.lt_succ_self _
    simp only [step, load, exchanged]
    split_ifs
    · simp only [Uploader.step, Setup.phaseWork]
      omega
    · simp only [Uploader.step, Setup.phaseWork]
      omega
  case upload.reading =>
    have hretry := S.cfg.work_retry st p a
    cases reads with
    | nil =>
      simp only [step, load, exchanged, read, List.headD_nil, Read.event, Uploader.step, Setup.phaseWork, List.tail_nil]
      omega
    | cons r rs =>
      cases r with
      | failed =>
        simp only [step, load, exchanged, read, List.headD_cons, Read.event, Uploader.step, Setup.phaseWork,
          List.tail_cons, List.length_cons]
        omega
      | datagram src d =>
        have hhandle := Config.work_handle (d.take 2048) (hr _ rfl)
        simp only [step, load, exchanged, read, List.headD_cons, Read.event, Uploader.step, Setup.phaseWork,
          List.tail_cons, List.length_cons]
        split_ifs <;> omega
  all_goals simp [exitCode] at h

theorem exists_exitCode (S : Setup) (writes : List Bool) (reads : List Read) :
    ∃ n code, ((step S)^[n] (start S writes reads)).exitCode = some code := by
  have hstop := Iteration.exists_iterate_of_decreasing (f := step S) (I := InRange S)
    (D := fun t => t.exitCode ≠ none) (load S) (fun _ => inRange_step)
    (fun _ hr h => load_step hr (not_not.mp h)) (inRange_start writes reads)
  obtain ⟨n, hn⟩ := hstop
  exact ⟨n, Option.ne_none_iff_exists'.mp hn⟩

end Tool

end LogoCore.Upload
