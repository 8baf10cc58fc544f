import LogoCore.EventMachine
import LogoCore.WireFormat

namespace LogoCore.Upload

structure Config where
  img : List UInt8
  retries : ℤ

inductive Stage where
  | wrq
  | data (seq blk : UInt32)
  | fin
deriving DecidableEq, Repr

/-- How `run` ends; `indexOutOfRange` is the panic of a slice expression. -/
inductive Outcome where
  | noReplyToWRQ
  | rejectedWRQ (status : UInt32)
  | invalidBlockSize
  | noReplyToBlock (seq : UInt32)
  | blockError (seq status : UInt32)
  | indexOutOfRange
  | noFinalAck
  | finFailed (status : UInt32)
  | verified
deriving DecidableEq, Repr

def Outcome.exitCode : Outcome → ℕ
  | .noReplyToWRQ | .rejectedWRQ _ | .invalidBlockSize => 2
  | .noReplyToBlock _ | .blockError _ _ => 3
  | .indexOutOfRange => 2
  | .finFailed _ => 4
  | .noFinalAck | .verified => 0

/-- `run` is about to write the payload of an exchange, waits for the reply to it, or has ended. -/
inductive State where
  | writing (stage : Stage) (payload : List UInt8) (attempt : ℕ)
  | reading (stage : Stage) (payload : List UInt8) (attempt : ℕ)
  | exited (o : Outcome)
deriving DecidableEq, Repr

def State.isWriting : State → Bool
  | .writing _ _ _ => true
  | _ => false

def State.isReading : State → Bool
  | .reading _ _ _ => true
  | _ => false

def Stage.wantTag : Stage → UInt32
  | .wrq => tagAWRQ
  | .data _ _ => tagADAT
  | .fin => tagAFIN

def Stage.matches : Stage → List UInt8 → Bool
  | .data seq _, d => (u32At d 4).2 && decide ((u32At d 4).1 = seq)
  | _, _ => true

def Stage.accepts (stage : Stage) (reply : List UInt8) : Bool :=
  (u32At reply 0).2 && decide ((u32At reply 0).1 = stage.wantTag) && stage.matches reply

def Stage.noReply : Stage → Outcome
  | .wrq => .noReplyToWRQ
  | .data seq _ => .noReplyToBlock seq
  | .fin => .noFinalAck

namespace Config

variable (cfg : Config)

def total : UInt32 := UInt32.ofNat cfg.img.length

def crc : UInt32 := checksumIEEE cfg.img

def nblocks (blk : UInt32) : UInt32 := (cfg.total + blk - 1) / blk

def chunk (seq blk : UInt32) : Option (List UInt8) :=
  let hi := if (seq + 1) * blk > cfg.total then cfg.total else (seq + 1) * blk
  let lo := seq * blk
  if lo ≤ hi ∧ hi.toNat ≤ cfg.img.length then some ((cfg.img.take hi.toNat).drop lo.toNat) else none

/-- The loop head of `exchange`. -/
def exchange (stage : Stage) (payload : List UInt8) (attempt : ℕ) : State :=
  if attempt < cfg.retries then .writing stage payload attempt else .exited stage.noReply

/-- The loop head of the block loop, and what follows the loop. -/
def sendBlock (seq blk : UInt32) : State :=
  if seq < cfg.nblocks blk then
    match cfg.chunk seq blk with
    | some c => cfg.exchange (.data seq blk) (encodeDATA seq c) 0
    | none => .exited .indexOutOfRange
  else cfg.exchange .fin (encodeTag tagFIN) 0

def handle (reply : List UInt8) : Stage → State
  | .wrq =>
    if (u32At reply 4).1 ≠ stOK then .exited (.rejectedWRQ (u32At reply 4).1)
    else if !(u32At reply 8).2 ∨ (u32At reply 8).1 = 0 then .exited .invalidBlockSize
    else cfg.sendBlock 0 (u32At reply 8).1
  | .data seq blk =>
    if (u32At reply 8).1 ≠ stOK then .exited (.blockError seq (u32At reply 8).1)
    else cfg.sendBlock (seq + 1) blk
  | .fin =>
    if (u32At reply 4).1 ≠ stOK then .exited (.finFailed (u32At reply 4).1) else .exited .verified

end Config

/-- What the socket does: a write succeeds or fails, a read fails or times out, or it returns a
datagram of some sender. -/
inductive SockEvent where
  | written
  | unreachable
  | readFailed
  | datagram (src : ℕ) (d : List UInt8)

structure Uploader where
  state : State
  sent : List (List UInt8)
  received : List (List UInt8)

namespace Uploader

def start (cfg : Config) : Uploader := ⟨cfg.exchange .wrq (encodeWRQ cfg.total cfg.crc) 0, [], []⟩

def step (cfg : Config) (u : Uploader) : SockEvent → Uploader
  | .written =>
    match u.state with
    | .writing stage payload attempt =>
      { u with state := .reading stage payload attempt, sent := u.sent ++ [payload] }
    | _ => u
  | .unreachable =>
    match u.state with
    | .writing stage payload attempt => { u with state := cfg.exchange stage payload (attempt + 1) }
    | _ => u
  | .readFailed =>
    match u.state with
    | .reading stage payload attempt => { u with state := cfg.exchange stage payload (attempt + 1) }
    | _ => u
  | .datagram _ d =>
    match u.state with
    | .reading stage _ _ =>
      let reply := d.take 2048
      { u with state := if stage.accepts reply then cfg.handle reply stage else u.state
               received := u.received ++ [reply] }
    | _ => u

def Enabled (u : Uploader) : SockEvent → Prop
  | .written | .unreachable => u.state.isWriting = true
  | .readFailed | .datagram _ _ => u.state.isReading = true

instance (u : Uploader) : (e : SockEvent) → Decidable (u.Enabled e)
  | .written | .unreachable => inferInstanceAs (Decidable (u.state.isWriting = true))
  | .readFailed | .datagram _ _ => inferInstanceAs (Decidable (u.state.isReading = true))

end Uploader

def uploadMachine (cfg : Config) : Machine Uploader SockEvent := ⟨Uploader.Enabled, Uploader.step cfg⟩

instance (cfg : Config) (u : Uploader) (e : SockEvent) : Decidable ((uploadMachine cfg).enabled u e) :=
  inferInstanceAs (Decidable (u.Enabled e))

def State.current : State → Option (Stage × List UInt8)
  | .writing stage payload _ | .reading stage payload _ => some (stage, payload)
  | .exited _ => none

theorem Stage.accepts_tag {stage : Stage} {d : List UInt8} (h : stage.accepts d = true) :
    u32At d 0 = (stage.wantTag, true) := by
  simp only [Stage.accepts, Bool.and_eq_true] at h
  exact Prod.ext (of_decide_eq_true h.1.2) h.1.1

theorem Stage.accepts_seq {seq blk : UInt32} {d : List UInt8} (h : (Stage.data seq blk).accepts d = true) :
    u32At d 4 = (seq, true) := by
  simp only [Stage.accepts, Stage.matches, Bool.and_eq_true] at h
  exact Prod.ext (of_decide_eq_true h.2.2) h.2.1

theorem Stage.noReply_ne_verified (stage : Stage) : stage.noReply ≠ .verified := by
  cases stage <;> simp [Stage.noReply]

theorem Stage.noReply_ne_indexOutOfRange (stage : Stage) : stage.noReply ≠ .indexOutOfRange := by
  cases stage <;> simp [Stage.noReply]

theorem toNat_succ {s n : UInt32} (h : s < n) : (s + 1).toNat = s.toNat + 1 := by
  have hlt := UInt32.lt_iff_toNat_lt.mp h
  have hn := n.toNat_lt
  rw [UInt32.toNat_add]
  exact Nat.mod_eq_of_lt (by simp only [UInt32.reduceToNat]; omega)

namespace Config

variable {cfg : Config}

theorem exchange_current {stage st : Stage} {payload p : List UInt8} {attempt : ℕ}
    (h : (cfg.exchange stage payload attempt).current = some (st, p)) : st = stage ∧ p = payload := by
  unfold exchange at h
  split_ifs at h
  · simpa [State.current, eq_comm] using h
  · simp [State.current] at h

theorem exchange_exited {stage : Stage} {payload : List UInt8} {attempt : ℕ} {o : Outcome}
    (h : cfg.exchange stage payload attempt = .exited o) : o = stage.noReply := by
  unfold exchange at h
  split_ifs at h
  exact (State.exited.inj h).symm

theorem exchange_ne_verified (stage : Stage) (payload : List UInt8) (attempt : ℕ) :
    cfg.exchange stage payload attempt ≠ .exited .verified := by
  intro h
  exact stage.noReply_ne_verified (exchange_exited h).symm

theorem exchange_ne_indexOutOfRange (stage : Stage) (payload : List UInt8) (attempt : ℕ) :
    cfg.exchange stage payload attempt ≠ .exited .indexOutOfRange := by
  intro h
  exact stage.noReply_ne_indexOutOfRange (exchange_exited h).symm

theorem sendBlock_current {seq blk : UInt32} {st : Stage} {p : List UInt8}
    (h : (cfg.sendBlock seq blk).current = some (st, p)) :
    (st = .data seq blk ∧ seq < cfg.nblocks blk ∧ ∃ c, cfg.chunk seq blk = some c ∧ p = encodeDATA seq c) ∨
      (st = .fin ∧ ¬ seq < cfg.nblocks blk ∧ p = encodeTag tagFIN) := by
  unfold sendBlock at h
  split_ifs at h with hlt
  · cases hc : cfg.chunk seq blk with
    | none => simp [hc, State.current] at h
    | some c =>
      rw [hc] at h
      obtain ⟨rfl, rfl⟩ := exchange_current h
      exact .inl ⟨rfl, hlt, c, rfl, rfl⟩
  · obtain ⟨rfl, rfl⟩ := exchange_current h
    exact .inr ⟨rfl, hlt, rfl⟩

theorem sendBlock_ne_verified (seq blk : UInt32) : cfg.sendBlock seq blk ≠ .exited .verified := by
  unfold sendBlock
  split_ifs
  · cases cfg.chunk seq blk with
    | none => simp
    | some c => exact exchange_ne_verified _ _ _
  · exact exchange_ne_verified _ _ _

theorem handle_cases (reply : List UInt8) (stage : Stage) :
    (∃ o, cfg.handle reply stage = .exited o ∧ o ≠ .verified ∧ o ≠ .indexOutOfRange) ∨
      (stage = .wrq ∧ 1 ≤ (u32At reply 8).1.toNat ∧
        cfg.handle reply stage = cfg.sendBlock 0 (u32At reply 8).1) ∨
      (∃ seq blk, stage = .data seq blk ∧ (u32At reply 8).1 = stOK ∧
        cfg.handle reply stage = cfg.sendBlock (seq + 1) blk) ∨
      (stage = .fin ∧ (u32At reply 4).1 = stOK ∧ cfg.handle reply stage = .exited .verified) := by
  cases stage with
  | wrq =>
    by_cases hst : (u32At reply 4).1 = stOK
    · by_cases hblk : (!(u32At reply 8).2) = true ∨ (u32At reply 8).1 = 0
      · refine .inl ⟨.invalidBlockSize, ?_, by simp⟩
        simp only [handle, hst, hblk, ne_eq, not_true_eq_false, ↓reduceIte]
      · have hpos : (u32At reply 8).1.toNat ≠ 0 := fun h0 => (not_or.mp hblk).2 (UInt32.toNat_inj.mp h0)
        refine .inr (.inl ⟨rfl, by omega, ?_⟩)
        simp only [handle, hst, hblk, ne_eq, not_true_eq_false, ↓reduceIte]
    · refine .inl ⟨.rejectedWRQ (u32At reply 4).1, ?_, by simp⟩
      simp only [handle, ne_eq, hst, not_false_eq_true, ↓reduceIte]
  | data seq blk =>
    by_cases hst : (u32At reply 8).1 = stOK
    · refine .inr (.inr (.inl ⟨seq, blk, rfl, hst, ?_⟩))
      simp only [handle, hst, ne_eq, not_true_eq_false, ↓reduceIte]
    · refine .inl ⟨.blockError seq (u32At reply 8).1, ?_, by simp⟩
      simp only [handle, ne_eq, hst, not_false_eq_true, ↓reduceIte]
  | fin =>
    by_cases hst : (u32At reply 4).1 = stOK
    · refine .inr (.inr (.inr ⟨rfl, hst, ?_⟩))
      simp only [handle, hst, ne_eq, not_true_eq_false, ↓reduceIte]
    · refine .inl ⟨.finFailed (u32At reply 4).1, ?_, by simp⟩
      simp only [handle, ne_eq, hst, not_false_eq_true, ↓reduceIte]

end Config

end LogoCore.Upload
