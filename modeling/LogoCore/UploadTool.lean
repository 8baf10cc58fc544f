import LogoCore.ModbusReboot
import LogoCore.Uploader

namespace LogoCore.Upload

def exitNoLoader : ℕ := 5
def exitLocked : ℕ := 6

/-- The flags of `run`, and the Modbus side of the device. -/
structure Setup where
  cfg : Config
  noReboot : Bool
  first : Peer
  polls : List Poll

inductive Read where
  | failed
  | datagram (src : ℕ) (d : List UInt8)
deriving DecidableEq, Repr

/-- Where `ident` is called: first in `ensureBootloader`, or in `waitForBootloader` with that many tries
left after this one. -/
inductive Caller where
  | ensureBootloader
  | afterReboot (left : ℕ)
  | afterModbus (left : ℕ)
deriving DecidableEq, Repr

inductive Phase where
  | identWrite (c : Caller)
  | identRead (c : Caller)
  | reboot
  | modbus
  | upload (s : State)
  | stopped (code : ℕ)
deriving DecidableEq, Repr

/-- `run` with what its UDP socket will do: the outcomes of its writes and the results of its reads. Once
the lists are used up, writes succeed and reads time out. -/
structure Tool where
  phase : Phase
  writes : List Bool
  reads : List Read
  sent : List (List UInt8)
  roles : List (Option UInt32)

def Setup.begin (S : Setup) : Phase := .upload (Uploader.start S.cfg).state

def identReply : Read → Option UInt32
  | .failed => none
  | .datagram _ d =>
    if u32At (d.take 64) 0 = (tagAIDENT, true) ∧ (u32At (d.take 64) 4).2 then some (u32At (d.take 64) 4).1 else none

def Read.event : Read → SockEvent
  | .failed => .readFailed
  | .datagram src d => .datagram src d

namespace Tool

def start (S : Setup) (writes : List Bool) (reads : List Read) : Tool :=
  ⟨if S.noReboot then S.begin else .identWrite .ensureBootloader, writes, reads, [], []⟩

def written (t : Tool) : Bool := t.writes.headD true

def write (t : Tool) (payload : List UInt8) : Tool :=
  { t with writes := t.writes.tail, sent := if t.written then t.sent ++ [payload] else t.sent }

def read (t : Tool) : Read := t.reads.headD .failed

def afterIdent (S : Setup) (role : Option UInt32) : Caller → Phase
  | .ensureBootloader =>
    if role = some roleBootloader then S.begin else if role = some roleApp then .reboot else .modbus
  | .afterReboot left =>
    if role = some roleBootloader then S.begin
    else match left with
      | 0 => .stopped exitNoLoader
      | left + 1 => .identWrite (.afterReboot left)
  | .afterModbus left =>
    if role = some roleBootloader then S.begin
    else match left with
      | 0 => S.begin
      | left + 1 => .identWrite (.afterModbus left)

def identified (S : Setup) (t : Tool) (role : Option UInt32) (c : Caller) : Tool :=
  { t with phase := afterIdent S role c, roles := t.roles ++ [role] }

def exchanged (S : Setup) (t : Tool) (s : State) (e : SockEvent) : Tool :=
  let u := Uploader.step S.cfg ⟨s, [], []⟩ e
  { t with phase := .upload u.state, sent := t.sent ++ u.sent }

def afterModbus (S : Setup) : Phase :=
  match modbusReboot S.first S.polls with
  | .locked => .stopped exitLocked
  | .accepted => .identWrite (.afterModbus 39)
  | .failed => S.begin

def step (S : Setup) (t : Tool) : Tool :=
  match t.phase with
  | .identWrite c =>
    if t.written then { t.write (encodeTag tagIDENT) with phase := .identRead c }
    else (t.write (encodeTag tagIDENT)).identified S none c
  | .identRead c => { t with reads := t.reads.tail }.identified S (identReply t.read) c
  | .reboot => { t.write (encodeTag tagREBOOT) with phase := .identWrite (.afterReboot 39) }
  | .modbus => { t with phase := afterModbus S }
  | .upload (.writing st p a) =>
    { t with writes := t.writes.tail }.exchanged S (.writing st p a) (if t.written then .written else .unreachable)
  | .upload (.reading st p a) =>
    { t with reads := t.reads.tail }.exchanged S (.reading st p a) t.read.event
  | .upload (.exited _) | .stopped _ => t

def exitCode (t : Tool) : Option ℕ :=
  match t.phase with
  | .upload (.exited o) => some o.exitCode
  | .stopped code => some code
  | _ => none

theorem step_of_exitCode {S : Setup} {t : Tool} {code : ℕ} (h : t.exitCode = some code) : t.step S = t := by
  obtain ⟨phase, writes, reads, sent, roles⟩ := t
  rcases phase with c | c | _ | _ | (_ | _ | o) | code
  case upload.exited => rfl
  case stopped => rfl
  all_goals simp [exitCode] at h

variable {S : Setup}

theorem exchanged_eq {t : Tool} {u : Uploader} {base : List (List UInt8)} (hs : t.sent = base ++ u.sent)
    (e : SockEvent) : (t.exchanged S u.state e).phase = .upload (u.step S.cfg e).state ∧
      (t.exchanged S u.state e).sent = base ++ (u.step S.cfg e).sent := by
  obtain ⟨s, sent, received⟩ := u
  cases e <;> cases s <;> simp [exchanged, Uploader.step, hs]

theorem step_writing {t : Tool} {st : Stage} {p : List UInt8} {a : ℕ} (h : t.phase = .upload (.writing st p a)) :
    t.step S = { t with writes := t.writes.tail }.exchanged S (.writing st p a)
      (if t.written then .written else .unreachable) := by
  obtain ⟨phase, writes, reads, sent, roles⟩ := t
  subst h
  rfl

theorem step_reading {t : Tool} {st : Stage} {p : List UInt8} {a : ℕ} (h : t.phase = .upload (.reading st p a)) :
    t.step S = { t with reads := t.reads.tail }.exchanged S (.reading st p a) t.read.event := by
  obtain ⟨phase, writes, reads, sent, roles⟩ := t
  subst h
  rfl

theorem upload_step {t : Tool} {u : Uploader} {base : List (List UInt8)} (hp : t.phase = .upload u.state)
    (hs : t.sent = base ++ u.sent) :
    t.step S = t ∨ ∃ e, u.Enabled e ∧ (t.step S).phase = .upload (u.step S.cfg e).state ∧
      (t.step S).sent = base ++ (u.step S.cfg e).sent := by
  cases hu : u.state with
  | writing st p a =>
    right
    rw [step_writing (hp.trans (congrArg _ hu)), ← hu]
    refine ⟨_, ?_, exchanged_eq (t := { t with writes := t.writes.tail }) hs _⟩
    cases t.written <;> simp [Uploader.Enabled, hu, State.isWriting]
  | reading st p a =>
    right
    rw [step_reading (hp.trans (congrArg _ hu)), ← hu]
    refine ⟨_, ?_, exchanged_eq (t := { t with reads := t.reads.tail }) hs _⟩
    cases t.read <;> simp [Read.event, Uploader.Enabled, hu, State.isReading]
  | exited o =>
    left
    rw [hu] at hp
    simp only [step, hp]

theorem upload_run {t : Tool} (hp : t.phase = S.begin) (n : ℕ) :
    ∃ es, (uploadMachine S.cfg).Legal (.start S.cfg) es ∧
      ((step S)^[n] t).phase = .upload ((uploadMachine S.cfg).run (.start S.cfg) es).state ∧
      ((step S)^[n] t).sent = t.sent ++ ((uploadMachine S.cfg).run (.start S.cfg) es).sent := by
  induction n with
  | zero => exact ⟨[], trivial, hp, (List.append_nil _).symm⟩
  | succ n ih =>
    obtain ⟨es, hl, hphase, hsent⟩ := ih
    rw [Function.iterate_succ_apply']
    obtain hsame | ⟨e, he, hphase', hsent'⟩ := upload_step (S := S) hphase hsent
    · rw [hsame]
      exact ⟨es, hl, hphase, hsent⟩
    · refine ⟨es ++ [e], ((uploadMachine S.cfg).legal_append _ _ _).mpr ⟨hl, he, trivial⟩, ?_⟩
      rw [Machine.run_append]
      exact ⟨hphase', hsent'⟩

end Tool

end LogoCore.Upload
