import LogoCore.WireFormat

namespace LogoCore.Upload

def fcReboot : UInt8 := 0x4C
def fcLock : UInt8 := 0x4D
def mbSuccess : UInt8 := 0x7E
def mbLocked : UInt8 := 0x6C
def rebootMagic : List UInt8 := [0xB0, 0x07, 0x10, 0xAD]

inductive RebootResult where
  | failed
  | accepted
  | locked
deriving DecidableEq, Repr

inductive Reply where
  | unreachable
  | reset
  | frame (b : List UInt8)
deriving DecidableEq, Repr

/-- The other end of a connection, as a function of the request that reaches it. -/
def Peer := List UInt8 → Reply

def be16 (n : ℕ) : List UInt8 := [UInt8.ofNat (n / 256), UInt8.ofNat n]

def mbAdu (pdu : List UInt8) : List UInt8 := be16 1 ++ be16 0 ++ be16 (pdu.length + 1) ++ [1] ++ pdu

def rebootPdu : List UInt8 := fcReboot :: rebootMagic

def mbTxn (peer : Peer) (pdu : List UInt8) : List UInt8 × Bool :=
  match peer (mbAdu pdu) with
  | .unreachable => ([], false)
  | .reset => ([], true)
  | .frame b => if (b.take 64).length < 8 then ([], false) else ((b.take 64).drop 7, true)

def lockState (peer : Peer) : UInt8 × Bool :=
  match mbTxn peer [fcLock] with
  | (fc :: status :: state :: _, true) => if fc = fcLock ∧ status = mbSuccess then (state, true) else (0, false)
  | _ => (0, false)

/-- The local function `ask` of `modbusReboot`. -/
def ask (peer : Peer) : RebootResult :=
  match mbTxn peer rebootPdu with
  | (_, false) => .failed
  | ([], true) => .accepted
  | (fc :: status :: _, true) =>
    if fc = fcReboot then
      if status = mbSuccess then .accepted else if status = mbLocked then .locked else .failed
    else .accepted
  | ([_], true) => .accepted

/-- One turn of the polling loop: what answers FC 0x4D, and what answers FC 0x4C if it is sent again. -/
structure Poll where
  lock : Peer
  reboot : Peer

def waitUnlock : List Poll → RebootResult
  | [] => .locked
  | q :: qs =>
    if (lockState q.lock).2 ∧ (lockState q.lock).1 = 0 then
      if ask q.reboot ≠ .locked then ask q.reboot else waitUnlock qs
    else if !(lockState q.lock).2 then .accepted
    else waitUnlock qs

def modbusReboot (first : Peer) (polls : List Poll) : RebootResult :=
  if ask first ≠ .locked then ask first else waitUnlock polls

namespace Reply

def pdu : Reply → List UInt8
  | .frame b => (b.take 64).drop 7
  | _ => []

def lockReport (r : Reply) : Option UInt8 :=
  match r.pdu with
  | fc :: status :: state :: _ => if fc = fcLock ∧ status = mbSuccess then some state else none
  | _ => none

/-- The status in an answer to FC 0x4C. -/
def rebootStatus (r : Reply) : Option UInt8 :=
  match r.pdu with
  | fc :: status :: _ => if fc = fcReboot then some status else none
  | _ => none

def Gone (r : Reply) : Prop := r = .unreachable ∨ r = .reset

def Malformed (r : Reply) : Prop := ¬ r.Gone ∧ r.lockReport = none

instance (r : Reply) : Decidable r.Gone := inferInstanceAs (Decidable (_ ∨ _))

instance (r : Reply) : Decidable r.Malformed := inferInstanceAs (Decidable (_ ∧ _))

end Reply

theorem mbTxn_short {b pdu : List UInt8} {peer : Peer} (h : peer (mbAdu pdu) = .frame b)
    (hlen : (b.take 64).length < 8) : (Reply.frame b).pdu = [] ∧ mbTxn peer pdu = ([], false) := by
  refine ⟨List.drop_eq_nil_of_le (by omega), ?_⟩
  rw [mbTxn, h]
  exact if_pos hlen

theorem mbTxn_long {b pdu : List UInt8} {peer : Peer} (h : peer (mbAdu pdu) = .frame b)
    (hlen : ¬ (b.take 64).length < 8) : mbTxn peer pdu = ((Reply.frame b).pdu, true) := by
  rw [mbTxn, h]
  exact if_neg hlen

theorem lockState_eq (peer : Peer) :
    lockState peer = match (peer (mbAdu [fcLock])).lockReport with
      | some state => (state, true)
      | none => (0, false) := by
  cases h : peer (mbAdu [fcLock]) with
  | unreachable => simp only [lockState, mbTxn, h, Reply.lockReport, Reply.pdu]
  | reset => simp only [lockState, mbTxn, h, Reply.lockReport, Reply.pdu]
  | frame b =>
    by_cases hlen : (b.take 64).length < 8
    · obtain ⟨hpdu, htxn⟩ := mbTxn_short h hlen
      simp only [lockState, htxn, Reply.lockReport, hpdu]
    · have htxn := mbTxn_long h hlen
      rcases hp : (Reply.frame b).pdu with _ | ⟨fc, _ | ⟨status, _ | ⟨state, rest⟩⟩⟩
      case cons.cons.cons =>
        simp only [lockState, htxn, hp, Reply.lockReport]
        split_ifs <;> rfl
      all_goals simp only [lockState, htxn, hp, Reply.lockReport]

theorem ask_cases (peer : Peer) :
    (∃ status, (peer (mbAdu rebootPdu)).rebootStatus = some status ∧
      ask peer = if status = mbSuccess then .accepted else if status = mbLocked then .locked else .failed) ∨
      ((peer (mbAdu rebootPdu)).rebootStatus = none ∧ ask peer ≠ .locked) := by
  cases hr : peer (mbAdu rebootPdu) with
  | unreachable =>
    right
    simp [Reply.rebootStatus, Reply.pdu, ask, mbTxn, hr]
  | reset =>
    right
    simp [Reply.rebootStatus, Reply.pdu, ask, mbTxn, hr]
  | frame b =>
    by_cases hlen : (b.take 64).length < 8
    · obtain ⟨hpdu, htxn⟩ := mbTxn_short hr hlen
      right
      simp [Reply.rebootStatus, hpdu, ask, htxn]
    · have htxn := mbTxn_long hr hlen
      rcases hp : (Reply.frame b).pdu with _ | ⟨fc, _ | ⟨st, rest⟩⟩
      case cons.cons =>
        by_cases hfc : fc = fcReboot
        · left
          refine ⟨st, ?_, ?_⟩
          · simp [Reply.rebootStatus, hp, hfc]
          · simp [ask, htxn, hp, hfc]
        · right
          simp [Reply.rebootStatus, ask, htxn, hp, hfc]
      all_goals
        right
        simp [Reply.rebootStatus, ask, htxn, hp]

namespace Poll

variable {q : Poll} {qs : List Poll}

def lockAnswer (q : Poll) : Reply := q.lock (mbAdu [fcLock])

def rebootAnswer (q : Poll) : Reply := q.reboot (mbAdu rebootPdu)

/-- The device is still locked, or was locked again before FC 0x4C reached it. -/
def Waiting (q : Poll) : Prop :=
  ∃ state, q.lockAnswer.lockReport = some state ∧ (state = 0 → ask q.reboot = .locked)

def Released (q : Poll) : Prop :=
  q.lockAnswer.lockReport = some 0 ∧ ∀ status, q.rebootAnswer.rebootStatus = some status → status = mbSuccess

theorem lockState_some {state : UInt8} (h : q.lockAnswer.lockReport = some state) :
    lockState q.lock = (state, true) := by
  unfold lockAnswer at h
  rw [lockState_eq, h]

theorem lockState_none (h : q.lockAnswer.lockReport = none) : lockState q.lock = (0, false) := by
  unfold lockAnswer at h
  rw [lockState_eq, h]

theorem Waiting.step (h : q.Waiting) : waitUnlock (q :: qs) = waitUnlock qs := by
  obtain ⟨state, hrep, hzero⟩ := h
  rw [waitUnlock, lockState_some hrep]
  by_cases hs : state = 0
  · simp [hs, hzero hs]
  · simp [hs]

theorem waitUnlock_none (h : q.lockAnswer.lockReport = none) : waitUnlock (q :: qs) = .accepted := by
  rw [waitUnlock, lockState_none h]
  simp

theorem waitUnlock_retry (h : q.lockAnswer.lockReport = some 0) (ha : ask q.reboot ≠ .locked) :
    waitUnlock (q :: qs) = ask q.reboot := by
  rw [waitUnlock, lockState_some h]
  simp [ha]

theorem Waiting.not_malformed (h : q.Waiting) : ¬ q.lockAnswer.Malformed := by
  rintro ⟨-, hnone⟩
  obtain ⟨state, hrep, -⟩ := h
  simp [hnone] at hrep

theorem not_gone_of_report {r : Reply} {state : UInt8} (h : r.lockReport = some state) : ¬ r.Gone := by
  rintro (rfl | rfl) <;> simp [Reply.lockReport, Reply.pdu] at h

theorem released_of_accepted (h : q.lockAnswer.lockReport = some 0) (ha : ask q.reboot = .accepted) :
    q.Released := by
  refine ⟨h, fun status hst => ?_⟩
  obtain ⟨st, hst', hask⟩ | ⟨hnone, -⟩ := ask_cases q.reboot
  · obtain rfl : status = st := Option.some.inj (hst.symm.trans hst')
    by_contra hne
    rw [hask, if_neg hne] at ha
    split_ifs at ha
  · exact absurd (hst.symm.trans hnone) (by simp)

theorem Waiting.not_released (h : q.Waiting) : ¬ q.Released := by
  rintro ⟨hrep, hst⟩
  obtain ⟨state, hrep', hzero⟩ := h
  obtain rfl : (0 : UInt8) = state := Option.some.inj (hrep.symm.trans hrep')
  have hlocked := hzero rfl
  obtain ⟨st, hst', hask⟩ | ⟨-, hne⟩ := ask_cases q.reboot
  · rw [hask, if_pos (hst st hst')] at hlocked
    exact absurd hlocked (by simp)
  · exact hne hlocked

theorem decides (qs : List Poll) (h : ¬ q.Waiting) :
    (q.lockAnswer.lockReport = none ∧ waitUnlock (q :: qs) = .accepted) ∨
      (q.lockAnswer.lockReport = some 0 ∧ waitUnlock (q :: qs) = ask q.reboot) := by
  cases hrep : q.lockAnswer.lockReport with
  | none => exact .inl ⟨rfl, waitUnlock_none hrep⟩
  | some state =>
    right
    have hpoll : state = 0 ∧ ask q.reboot ≠ .locked := by
      constructor
      · by_contra hs
        exact h ⟨state, hrep, fun h0 => absurd h0 hs⟩
      · intro ha
        exact h ⟨state, hrep, fun _ => ha⟩
    obtain ⟨rfl, ha⟩ := hpoll
    exact ⟨rfl, waitUnlock_retry hrep ha⟩

end Poll

/-- The answers that let `modbusReboot` go on with a locked device: the lock was reported off and the
request that followed was not answered otherwise, or the device was gone. -/
def Unlocked (polls : List Poll) : Prop :=
  ∃ front q back, polls = front ++ q :: back ∧ (∀ w ∈ front, Poll.Waiting w) ∧
    (q.Released ∨ q.lockAnswer.Gone)

/-- Every answer to FC 0x4D that arrives within the loop is a lock report. -/
def WellReported (polls : List Poll) : Prop :=
  ∀ front q back, polls = front ++ q :: back → (∀ w ∈ front, Poll.Waiting w) → ¬ q.lockAnswer.Malformed

theorem unlocked_cons {q : Poll} {qs : List Poll} :
    Unlocked (q :: qs) ↔ (q.Released ∨ q.lockAnswer.Gone) ∨ (q.Waiting ∧ Unlocked qs) := by
  constructor
  · rintro ⟨front, w, back, heq, hwait, hw⟩
    cases front with
    | nil =>
      obtain ⟨rfl, rfl⟩ := List.cons.inj heq
      exact .inl hw
    | cons a front =>
      obtain ⟨rfl, rfl⟩ := List.cons.inj heq
      exact .inr ⟨hwait q (by simp), front, w, back, rfl, fun x hx => hwait x (by simp [hx]), hw⟩
  · rintro (hw | ⟨hq, front, w, back, rfl, hwait, hw⟩)
    · exact ⟨[], q, qs, rfl, by simp, hw⟩
    · refine ⟨q :: front, w, back, rfl, fun x hx => ?_, hw⟩
      obtain rfl | hx := List.mem_cons.mp hx
      · exact hq
      · exact hwait x hx

theorem wellReported_cons {q : Poll} {qs : List Poll} :
    WellReported (q :: qs) ↔ ¬ q.lockAnswer.Malformed ∧ (q.Waiting → WellReported qs) := by
  constructor
  · intro h
    refine ⟨h [] q qs rfl (by simp), fun hq front w back heq hwait => ?_⟩
    refine h (q :: front) w back (by rw [heq]; rfl) fun x hx => ?_
    obtain rfl | hx := List.mem_cons.mp hx
    · exact hq
    · exact hwait x hx
  · rintro ⟨hq, hqs⟩ front w back heq hwait
    cases front with
    | nil =>
      obtain ⟨rfl, rfl⟩ := List.cons.inj heq
      exact hq
    | cons a front =>
      obtain ⟨rfl, rfl⟩ := List.cons.inj heq
      exact hqs (hwait q (by simp)) front w back rfl fun x hx => hwait x (by simp [hx])

theorem waitUnlock_accepted_iff (polls : List Poll) :
    (waitUnlock polls = .accepted → Unlocked polls) ↔ WellReported polls := by
  induction polls with
  | nil => exact iff_of_true (by simp [waitUnlock]) (by simp [WellReported])
  | cons q qs ih =>
    rw [unlocked_cons, wellReported_cons]
    by_cases hq : q.Waiting
    · obtain ⟨state, hrep, -⟩ := id hq
      rw [hq.step]
      simp only [hq, hq.not_released, Poll.not_gone_of_report hrep, hq.not_malformed, or_self, false_or, true_and,
        not_false_eq_true, true_implies, ih]
    · simp only [hq, false_and, or_false, false_implies, and_true]
      obtain ⟨hrep, hres⟩ | ⟨hrep, hres⟩ := Poll.decides qs hq
      · have hno : ¬ q.Released := fun h => by simp [h.1] at hrep
        simp only [hres, hno, Reply.Malformed, hrep, and_true, false_or, true_implies, not_not]
      · have hmal : ¬ q.lockAnswer.Malformed := fun h => by simp [h.2] at hrep
        rw [hres]
        simp only [hmal, not_false_eq_true, iff_true]
        exact fun ha => .inl (Poll.released_of_accepted hrep ha)

/-- After a locked answer, `modbusReboot` accepts only on an unlock or a device that is gone, exactly when
no answer to FC 0x4D in the loop is one that arrives without being a lock report. -/
theorem locked_reboot_accepted_iff (first : Peer) (polls : List Poll)
    (hlocked : (first (mbAdu rebootPdu)).rebootStatus = some mbLocked) :
    (modbusReboot first polls = .accepted → Unlocked polls) ↔ WellReported polls := by
  have hask : ask first = .locked := by
    obtain ⟨st, hst, hask⟩ | ⟨hnone, -⟩ := ask_cases first
    · obtain rfl : mbLocked = st := Option.some.inj (hlocked.symm.trans hst)
      rw [hask]
      decide
    · exact absurd (hlocked.symm.trans hnone) (by simp)
  rw [modbusReboot, if_neg (by simp [hask])]
  exact waitUnlock_accepted_iff polls

def answering (pdu : List UInt8) : Peer := fun _ => .frame (mbAdu pdu)

theorem locked_reboot_accepted_unlocked :
    let polls : List Poll := [⟨answering [0x4D, 0x7E, 1], fun _ => .unreachable⟩,
      ⟨answering [0x4D, 0x7E, 0], answering [0x4C, 0x7E]⟩]
    modbusReboot (answering [0x4C, 0x6C]) polls = .accepted ∧ Unlocked polls := by
  intro polls
  have hacc : modbusReboot (answering [0x4C, 0x6C]) polls = .accepted := by decide
  refine ⟨hacc, (locked_reboot_accepted_iff (answering [0x4C, 0x6C]) polls (by decide)).mpr ?_ hacc⟩
  simp only [polls, wellReported_cons]
  refine ⟨by decide, fun _ => ⟨by decide, fun _ => ?_⟩⟩
  simp [WellReported]

/-- A Modbus exception in answer to the lock poll is taken for a device that went away. -/
theorem locked_reboot_accepts_exception :
    let polls : List Poll := [⟨answering [0xCD, 0x01], fun _ => .unreachable⟩]
    ((answering [0x4C, 0x6C]) (mbAdu rebootPdu)).rebootStatus = some mbLocked ∧
      modbusReboot (answering [0x4C, 0x6C]) polls = .accepted ∧ ¬ Unlocked polls := by
  intro polls
  refine ⟨by decide, by decide, ?_⟩
  simp only [polls, unlocked_cons]
  rintro ((⟨hrep, -⟩ | hgone) | ⟨-, front, q, back, heq, -⟩)
  · exact absurd hrep (by decide)
  · exact absurd hgone (by decide)
  · exact absurd heq (by simp)

end LogoCore.Upload
