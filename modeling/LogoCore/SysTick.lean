import Mathlib.Data.UInt
import Mathlib.Logic.Function.Iterate

namespace LogoCore.Wiring

def fCpu : ℕ := 120000000

def sysTickHz : ℕ := 1000

/-- The SysTick counter and the millisecond count; `reloads` is the exact number of reloads so far. -/
structure Clock where
  current : ℕ
  milliseconds : UInt32
  reloads : ℕ

def sysTickIntHandler (c : Clock) : Clock := { c with milliseconds := c.milliseconds + 1 }

-- the interrupt of a reload is taken before the program reads again
def tick (c : Clock) : Clock :=
  if c.current = 0 then sysTickIntHandler { c with current := fCpu / sysTickHz - 1, reloads := c.reloads + 1 }
  else { c with current := c.current - 1 }

def timerInit : Clock := ⟨fCpu / sysTickHz - 1, 0, 0⟩

def clockAt (t : ℕ) : Clock := tick^[t] timerInit

def Clock.steps (c : Clock) : ℕ := 120000 * c.reloads + (119999 - c.current)

def sysTickValueGet (c : Clock) : UInt32 := UInt32.ofNat c.current

/-- Counter steps that pass before each of the three reads in one turn of the loop of micros(). -/
structure Turn where
  first : ℕ
  sample : ℕ
  check : ℕ

structure Reading where
  value : UInt32
  sampled : Clock
  ended : Clock

-- the loop after its first `i` turns; none: it has not ended within the turns given
def micros (turns : ℕ → Turn) : ℕ → ℕ → Clock → Option Reading
  | 0, _, _ => none
  | n + 1, i, c =>
    let first := tick^[(turns i).first] c
    let m := first.milliseconds
    let sampled := tick^[(turns i).sample] first
    let val := sysTickValueGet sampled
    let checked := tick^[(turns i).check] sampled
    if m ≠ checked.milliseconds then micros turns n (i + 1) checked
    else some ⟨m * 1000 + (UInt32.ofNat (fCpu / sysTickHz) - val) / UInt32.ofNat (fCpu / 1000000), sampled, checked⟩

def Returns (turns : ℕ → Turn) (c : Clock) (r : Reading) : Prop := ∃ n, micros turns n 0 c = some r

def Reading.Exact (r : Reading) : Prop :=
  r.value = UInt32.ofNat (1000 * r.sampled.reloads + (120000 - r.sampled.current) / 120)

theorem clockAt_eq (t : ℕ) : clockAt t = ⟨119999 - t % 120000, UInt32.ofNat (t / 120000), t / 120000⟩ := by
  induction t with
  | zero => rfl
  | succ t ih =>
    rw [clockAt, Function.iterate_succ_apply', ← clockAt, ih, tick]
    by_cases hzero : 119999 - t % 120000 = 0
    · have hdiv : (t + 1) / 120000 = t / 120000 + 1 := by omega
      have hmod : (t + 1) % 120000 = 0 := by omega
      rw [if_pos hzero, hdiv, hmod, UInt32.ofNat_add]
      rfl
    · have hdiv : (t + 1) / 120000 = t / 120000 := by omega
      have hmod : 119999 - t % 120000 - 1 = 119999 - (t + 1) % 120000 := by omega
      rw [if_neg hzero, hdiv, ← hmod]

theorem tick_clockAt (n t : ℕ) : tick^[n] (clockAt t) = clockAt (t + n) := by
  rw [clockAt, clockAt, ← Function.iterate_add_apply, Nat.add_comm]

theorem steps_clockAt (t : ℕ) : (clockAt t).steps = t := by
  simp only [clockAt_eq, Clock.steps]
  omega

end LogoCore.Wiring
