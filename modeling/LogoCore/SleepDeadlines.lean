import LogoCore.DelayPolling

namespace LogoCore.Wiring

/-- Interrupts taken between two accesses of the program: calls of SysTickIntHandler(), and whether one of the others
calls wakeup(). -/
structure Interrupts where
  sysTicks : ℕ
  wakeup : Bool

/-- The shared variables of sleep(); `added` is the exact sum of what was added to milliseconds since the call, and
`cleared` says whether stay_asleep was cleared since it was set. -/
structure Sleeper where
  milliseconds : UInt32
  stayAsleep : Bool
  added : ℕ
  cleared : Bool
deriving DecidableEq

def Sleeper.add (s : Sleeper) (amount : UInt32) : Sleeper :=
  { s with milliseconds := s.milliseconds + amount, added := s.added + amount.toNat }

def Sleeper.interrupt (s : Sleeper) (g : Interrupts) : Sleeper :=
  { milliseconds := s.milliseconds + UInt32.ofNat g.sysTicks
    stayAsleep := s.stayAsleep && !g.wakeup
    added := s.added + g.sysTicks
    cleared := s.cleared || g.wakeup }

/-- One turn of the loop: the interrupts before each of its two reads, and what it finds when the processor wakes.
Interrupts after the second read are counted before the next turn's first one. -/
structure SleepTurn where
  beforeFlag : Interrupts
  beforeCount : Interrupts
  pendstset : Bool
  stCurrent : UInt32

def deepsleepCpu : UInt32 := 16000000 / 16

def sleptFor (period : UInt32) (turn : SleepTurn) : UInt32 :=
  if turn.pendstset then period
  else (deepsleepCpu / (1000 / period) - turn.stCurrent) / (deepsleepCpu / 1000)

-- none: the loop has not ended within the turns given
def sleepLoop (period deadline : UInt32) : List SleepTurn → Sleeper → Option Sleeper
  | [], _ => none
  | turn :: turns, s =>
    let s := s.interrupt turn.beforeFlag
    if s.stayAsleep then
      let s := s.interrupt turn.beforeCount
      if s.milliseconds < deadline then sleepLoop period deadline turns (s.add (sleptFor period turn))
      else some s
    else some s

/-- The call from the read of milliseconds on; `setup` comes before stay_asleep is set. -/
def sleepFor (period duration milliseconds : UInt32) (setup : Interrupts) (turns : List SleepTurn) : Option Sleeper :=
  sleepLoop period (milliseconds + duration) turns
    ⟨milliseconds + UInt32.ofNat setup.sysTicks, true, setup.sysTicks, false⟩

def sleep (ms milliseconds : UInt32) (setup : Interrupts) (turns : List SleepTurn) : Option Sleeper :=
  sleepFor 100 ms milliseconds setup turns

def sleepSeconds (seconds milliseconds : UInt32) (setup : Interrupts) (turns : List SleepTurn) : Option Sleeper :=
  sleepFor 1000 (seconds * 1000) milliseconds setup turns

structure Sleeper.Tracks (m : UInt32) (s : Sleeper) : Prop where
  count : s.milliseconds = m + UInt32.ofNat s.added
  flag : s.stayAsleep = !s.cleared

section Runs

variable {m : UInt32} {s s' : Sleeper}

theorem Sleeper.Tracks.interrupt (h : s.Tracks m) (g : Interrupts) : (s.interrupt g).Tracks m where
  count := by
    simp only [Sleeper.interrupt]
    rw [h.count, UInt32.ofNat_add, UInt32.add_assoc]
  flag := by simp only [Sleeper.interrupt, h.flag, Bool.not_or]

theorem Sleeper.Tracks.add (h : s.Tracks m) (amount : UInt32) : (s.add amount).Tracks m where
  count := by
    simp only [Sleeper.add]
    rw [h.count, UInt32.ofNat_add, UInt32.ofNat_toNat, UInt32.add_assoc]
  flag := h.flag

theorem sleepLoop_ends {period deadline : UInt32} {turns : List SleepTurn} (h : s.Tracks m)
    (hloop : sleepLoop period deadline turns s = some s') :
    s'.Tracks m ∧ (s'.cleared = true ∨ deadline ≤ s'.milliseconds) := by
  induction turns generalizing s with
  | nil => cases hloop
  | cons turn turns ih =>
    have hflag := h.interrupt turn.beforeFlag
    have hcount := hflag.interrupt turn.beforeCount
    simp only [sleepLoop] at hloop
    split at hloop
    · split at hloop
      · exact ih (hcount.add _) hloop
      · rename_i hge
        cases hloop
        exact ⟨hcount, .inr (UInt32.not_lt.mp hge)⟩
    · rename_i hcleared
      cases hloop
      refine ⟨hflag, .inl ?_⟩
      rw [hflag.flag] at hcleared
      simpa using hcleared

end Runs

/-- Every run of a call that returns does so with stay_asleep cleared or with `request` milliseconds added. -/
def Honours (run : Interrupts → List SleepTurn → Option Sleeper) (request : ℕ) : Prop :=
  ∀ setup turns s, run setup turns = some s → s.cleared = true ∨ request ≤ s.added

theorem sleepFor_ends {period duration m : UInt32} {setup : Interrupts} {turns : List SleepTurn} {s : Sleeper}
    (h : sleepFor period duration m setup turns = some s) :
    s.Tracks m ∧ (s.cleared = true ∨ m + duration ≤ s.milliseconds) :=
  sleepLoop_ends ⟨rfl, rfl⟩ h

theorem exists_early_run (period : UInt32) {m : UInt32} {request : ℕ} (h : 2 ^ 32 ≤ m.toNat + request) :
    ∃ setup turns s, sleepFor period (UInt32.ofNat request) m setup turns = some s ∧ s.cleared = false ∧
      s.added < request := by
  have hm := m.toNat_lt
  let x := if m.toNat + request % 2 ^ 32 < 2 ^ 32 then request % 2 ^ 32 else 0
  have hx : x < request := by
    simp only [x]
    split <;> omega
  have hdue : ¬ m + UInt32.ofNat 0 + UInt32.ofNat 0 + UInt32.ofNat x < m + UInt32.ofNat request := by
    simp only [UInt32.lt_iff_toNat_lt, UInt32.toNat_add, UInt32.toNat_ofNat', x]
    split <;> omega
  refine ⟨⟨0, false⟩, [⟨⟨0, false⟩, ⟨x, false⟩, false, 0⟩],
    ⟨m + UInt32.ofNat 0 + UInt32.ofNat 0 + UInt32.ofNat x, true, 0 + 0 + x, false⟩, ?_, rfl, by simpa using hx⟩
  simp only [sleepFor, sleepLoop, Sleeper.interrupt, Bool.not_false, Bool.and_self, if_true, if_neg hdue,
    Bool.or_self]

theorem honours_iff (period m : UInt32) (request : ℕ) :
    Honours (sleepFor period (UInt32.ofNat request) m) request ↔ m.toNat + request < 2 ^ 32 := by
  constructor
  · intro h
    by_contra hwrap
    obtain ⟨setup, turns, s, hrun, hcleared, hadded⟩ := exists_early_run period (Nat.le_of_not_lt hwrap)
    obtain hc | hle := h setup turns s hrun
    · rw [hcleared] at hc
      cases hc
    · omega
  · intro hfits setup turns s hrun
    obtain ⟨htracks, hc | hdue⟩ := sleepFor_ends hrun
    · exact .inl hc
    · refine .inr ?_
      rw [htracks.count, UInt32.le_iff_toNat_le, UInt32.toNat_add, UInt32.toNat_add, UInt32.toNat_ofNat',
        UInt32.toNat_ofNat'] at hdue
      by_contra hlt
      rw [Nat.mod_eq_of_lt (show request < 2 ^ 32 by omega), Nat.mod_eq_of_lt (show s.added < 2 ^ 32 by omega),
        Nat.mod_eq_of_lt hfits, Nat.mod_eq_of_lt (by omega)] at hdue
      omega

theorem delays_honour_iff (ms seconds m : UInt32) :
    (ms.toNat * 1000 ≤ ((delayCalls ms).map UInt32.toNat).sum ↔ ms.toNat < 2 ^ 31) ∧
    (Honours (sleep ms m) ms.toNat ↔ m.toNat + ms.toNat < 2 ^ 32) ∧
    (Honours (sleepSeconds seconds m) (seconds.toNat * 1000) ↔ m.toNat + seconds.toNat * 1000 < 2 ^ 32) := by
  refine ⟨?_, ?_, ?_⟩
  · have hms := ms.toNat_lt
    have hsum : ((delayCalls ms).map UInt32.toNat).sum = ms.toNat * 2 % 2 ^ 32 * 500 := by
      rw [delayCalls, List.map_replicate, List.sum_replicate_nat, length_delayCalls]
      rfl
    rw [hsum]
    omega
  · have hsleep := honours_iff 100 m ms.toNat
    rwa [UInt32.ofNat_toNat] at hsleep
  · have hsleep := honours_iff 1000 m (seconds.toNat * 1000)
    rw [UInt32.ofNat_mul, UInt32.ofNat_toNat] at hsleep
    exact hsleep

def quietTurn : SleepTurn := ⟨⟨0, false⟩, ⟨0, false⟩, false, 0⟩

theorem wrapped_delays_return_early :
    delayCalls 2147483648 = [] ∧
      (∃ s, sleep 1000 4294967295 ⟨0, false⟩ [quietTurn] = some s ∧ s.cleared = false ∧ s.added = 0) ∧
      ∃ s, sleepSeconds 3600 4294967295 ⟨0, false⟩ [quietTurn] = some s ∧ s.cleared = false ∧ s.added = 0 := by
  refine ⟨by decide, ⟨⟨4294967295, true, 0, false⟩, by decide, rfl, rfl⟩,
    ⟨⟨4294967295, true, 0, false⟩, by decide, rfl, rfl⟩⟩

end LogoCore.Wiring
