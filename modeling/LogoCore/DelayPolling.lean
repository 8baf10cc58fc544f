import LogoCore.SysTick

namespace LogoCore.Wiring

def nvicStCurrentM : UInt32 := 0x00FFFFFF

def ticksPerPeriod : UInt32 := UInt32.ofNat (fCpu / sysTickHz)

def counterRead (c : Clock) : UInt32 := sysTickValueGet c &&& nvicStCurrentM

def waitTicks (us startTime : UInt32) : UInt32 :=
  let ticks := us * UInt32.ofNat (fCpu / 1000000)
  if ticks > startTime then (ticks + (nvicStCurrentM - ticksPerPeriod)) &&& nvicStCurrentM else ticks

-- `gaps i` counter steps pass before read `i` of the counter; none: the loop has not ended within the polls given
def pollLoop (gaps : ℕ → ℕ) (startTime ticks : UInt32) : ℕ → ℕ → Clock → Option (ℕ × Clock)
  | 0, _, _ => none
  | polls + 1, i, c =>
    let c := tick^[gaps i] c
    let elapsedTime := (startTime - counterRead c) &&& nvicStCurrentM
    if elapsedTime ≤ ticks then pollLoop gaps startTime ticks polls (i + 1) c else some (i + 1, c)

/-- delayMicroseconds() from the first read of the counter on. -/
def spin (gaps : ℕ → ℕ) (polls : ℕ) (us : UInt32) (i : ℕ) (c : Clock) : Option (ℕ × Clock) :=
  let c := tick^[gaps i] c
  let startTime := counterRead c
  pollLoop gaps startTime (waitTicks us startTime) polls (i + 1) c

/-- The arguments of the calls that the loop of delay() makes. -/
def delayCalls (millis : UInt32) : List UInt32 := List.replicate (millis * 2).toNat 500

-- a call with 500 does not come back to delay()
def delay (gaps : ℕ → ℕ) (polls : ℕ) (millis : UInt32) (i : ℕ) (c : Clock) : Option (ℕ × Clock) :=
  (delayCalls millis).foldlM (fun (r : ℕ × Clock) us => spin gaps polls us r.1 r.2) (i, c)

def delayMicroseconds (gaps : ℕ → ℕ) (polls : ℕ) (us : UInt32) (i : ℕ) (c : Clock) : Option (ℕ × Clock) :=
  if us > UInt32.ofNat (1000000 / sysTickHz - 1) then do
    let r ← delay gaps polls (us / 1000) i c
    spin gaps polls (us % 1000) r.1 r.2
  else spin gaps polls us i c

theorem limit_lt_iff {us : UInt32} : us > UInt32.ofNat (1000000 / sysTickHz - 1) ↔ 999 < us.toNat :=
  UInt32.lt_iff_toNat_lt

theorem delayMicroseconds_short {us : UInt32} (hus : us.toNat ≤ 999) (gaps : ℕ → ℕ) (polls i : ℕ) (c : Clock) :
    delayMicroseconds gaps polls us i c = spin gaps polls us i c := by
  rw [delayMicroseconds, if_neg (by rw [limit_lt_iff]; omega)]

theorem delayMicroseconds_long {us : UInt32} (hus : 999 < us.toNat) (gaps : ℕ → ℕ) (polls i : ℕ) (c : Clock) :
    delayMicroseconds gaps polls us i c =
      (delay gaps polls (us / 1000) i c).bind fun r => spin gaps polls (us % 1000) r.1 r.2 := by
  rw [delayMicroseconds, if_pos (limit_lt_iff.mpr hus)]
  rfl

section Masks

theorem toNat_and_mask (x : UInt32) : (x &&& nvicStCurrentM).toNat = x.toNat % 2 ^ 24 := by
  rw [UInt32.toNat_and, show nvicStCurrentM.toNat = 2 ^ 24 - 1 from rfl, Nat.and_two_pow_sub_one_eq_mod]

theorem counterRead_clockAt (t : ℕ) : (counterRead (clockAt t)).toNat = 119999 - t % 120000 := by
  rw [counterRead, toNat_and_mask, sysTickValueGet, clockAt_eq, UInt32.toNat_ofNat']
  simp only
  omega

theorem elapsedTime_eq (t e : ℕ) :
    ((counterRead (clockAt t) - counterRead (clockAt (t + e))) &&& nvicStCurrentM).toNat =
      if e % 120000 ≤ 119999 - t % 120000 then e % 120000 else e % 120000 + (2 ^ 24 - 120000) := by
  rw [toNat_and_mask, UInt32.toNat_sub, counterRead_clockAt, counterRead_clockAt]
  split <;> omega

theorem waitTicks_eq {us : UInt32} (hus : us.toNat ≤ 999) (t : ℕ) :
    (waitTicks us (counterRead (clockAt t))).toNat =
      if 119999 - t % 120000 < us.toNat * 120 then us.toNat * 120 + (2 ^ 24 - 1 - 120000) else us.toNat * 120 := by
  have hticks : (us * UInt32.ofNat (fCpu / 1000000)).toNat = us.toNat * 120 := by
    rw [UInt32.toNat_mul, show (UInt32.ofNat (fCpu / 1000000)).toNat = 120 from rfl]
    exact Nat.mod_eq_of_lt (by omega)
  have hshift : (nvicStCurrentM - ticksPerPeriod).toNat = 2 ^ 24 - 1 - 120000 := rfl
  have hlt : us * UInt32.ofNat (fCpu / 1000000) > counterRead (clockAt t) ↔ 119999 - t % 120000 < us.toNat * 120 := by
    rw [gt_iff_lt, UInt32.lt_iff_toNat_lt, counterRead_clockAt, hticks]
  rw [waitTicks]
  simp only [hlt]
  split
  · rw [toNat_and_mask, UInt32.toNat_add, hticks, hshift]
    omega
  · exact hticks

end Masks

/-- The loop ends at a poll `e` steps after the first read at `t`: the part of `e` behind the last whole period is
past the ticks to wait, or has just reached them when a reload was to come first. -/
def Ends (us : UInt32) (t e : ℕ) : Prop :=
  if 119999 - t % 120000 < us.toNat * 120 then us.toNat * 120 ≤ e % 120000 else us.toNat * 120 < e % 120000

instance (us : UInt32) (t e : ℕ) : Decidable (Ends us t e) :=
  inferInstanceAs (Decidable (if 119999 - t % 120000 < us.toNat * 120 then us.toNat * 120 ≤ e % 120000
    else us.toNat * 120 < e % 120000))

section Polls

variable {us : UInt32} (hus : us.toNat ≤ 999)

include hus

theorem ends_iff (t e : ℕ) :
    ¬ (counterRead (clockAt t) - counterRead (clockAt (t + e))) &&& nvicStCurrentM ≤
      waitTicks us (counterRead (clockAt t)) ↔ Ends us t e := by
  rw [UInt32.le_iff_toNat_le, elapsedTime_eq, waitTicks_eq hus, Ends]
  split <;> split <;> omega

theorem pollLoop_poll (gaps : ℕ → ℕ) (s p polls i : ℕ) (hp : s ≤ p) :
    pollLoop gaps (counterRead (clockAt s)) (waitTicks us (counterRead (clockAt s))) (polls + 1) i (clockAt p) =
      if Ends us s (p + gaps i - s) then some (i + 1, clockAt (p + gaps i))
      else pollLoop gaps (counterRead (clockAt s)) (waitTicks us (counterRead (clockAt s))) polls (i + 1)
        (clockAt (p + gaps i)) := by
  have hends := ends_iff hus s (p + gaps i - s)
  rw [show s + (p + gaps i - s) = p + gaps i by omega] at hends
  rw [pollLoop, tick_clockAt]
  simp only [← hends, ite_not]

theorem pollLoop_not_early {gaps : ℕ → ℕ} {s p polls i j : ℕ} {c : Clock} (hp : s ≤ p)
    (h : pollLoop gaps (counterRead (clockAt s)) (waitTicks us (counterRead (clockAt s))) polls i (clockAt p) =
      some (j, c)) : ∃ q, c = clockAt q ∧ s + us.toNat * 120 ≤ q := by
  induction polls generalizing p i with
  | zero => cases h
  | succ polls ih =>
    rw [pollLoop_poll hus gaps s p polls i hp] at h
    split at h
    · rename_i hends
      cases h
      refine ⟨p + gaps i, rfl, ?_⟩
      have hmod := Nat.mod_le (p + gaps i - s) 120000
      unfold Ends at hends
      split at hends <;> omega
    · exact ih (by omega) h

theorem spin_not_early {gaps : ℕ → ℕ} {polls i j t : ℕ} {c : Clock}
    (h : spin gaps polls us i (clockAt t) = some (j, c)) : ∃ q, c = clockAt q ∧ t + us.toNat * 120 ≤ q := by
  rw [spin, tick_clockAt] at h
  obtain ⟨q, hq, hle⟩ := pollLoop_not_early hus le_rfl h
  exact ⟨q, hq, by omega⟩

end Polls

theorem spins_not_early {gaps : ℕ → ℕ} {polls n : ℕ} {i j t : ℕ} {c : Clock}
    (h : (List.replicate n 500).foldlM (fun (r : ℕ × Clock) us => spin gaps polls us r.1 r.2) (i, clockAt t) =
      some (j, c)) : ∃ q, c = clockAt q ∧ t + n * 60000 ≤ q := by
  induction n generalizing i t with
  | zero =>
    cases h
    exact ⟨t, rfl, by omega⟩
  | succ n ih =>
    rw [List.replicate_succ, List.foldlM_cons] at h
    obtain ⟨⟨i', c'⟩, hspin, hrest⟩ := Option.bind_eq_some_iff.mp h
    obtain ⟨q', rfl, hle'⟩ := spin_not_early (by decide) hspin
    obtain ⟨q, hq, hle⟩ := ih hrest
    have h500 : (500 : UInt32).toNat = 500 := rfl
    exact ⟨q, hq, by omega⟩

theorem length_delayCalls (millis : UInt32) : (millis * 2).toNat = millis.toNat * 2 % 2 ^ 32 := by
  rw [UInt32.toNat_mul]
  rfl

theorem delay_not_early {gaps : ℕ → ℕ} {polls i j t : ℕ} {c : Clock} {millis : UInt32}
    (hmillis : millis.toNat < 2 ^ 31) (h : delay gaps polls millis i (clockAt t) = some (j, c)) :
    ∃ q, c = clockAt q ∧ t + millis.toNat * 2 * 60000 ≤ q := by
  have hcalls : (millis * 2).toNat = millis.toNat * 2 := by
    rw [length_delayCalls]
    exact Nat.mod_eq_of_lt (by omega)
  obtain ⟨q, hq, hle⟩ := spins_not_early h
  exact ⟨q, hq, hcalls ▸ hle⟩

theorem delayMicroseconds_not_early (us : UInt32) (t : ℕ) (gaps : ℕ → ℕ) (polls j : ℕ) (c : Clock)
    (h : delayMicroseconds gaps polls us 0 (clockAt t) = some (j, c)) : t + us.toNat * 120 ≤ c.steps := by
  have hus := us.toNat_lt
  by_cases hlong : 999 < us.toNat
  · rw [delayMicroseconds_long hlong] at h
    obtain ⟨⟨i, c'⟩, hdelay, hspin⟩ := Option.bind_eq_some_iff.mp h
    have hdiv : (us / 1000).toNat = us.toNat / 1000 := UInt32.toNat_div us 1000
    have hmod : (us % 1000).toNat = us.toNat % 1000 := UInt32.toNat_mod us 1000
    obtain ⟨q', rfl, hle'⟩ := delay_not_early (by rw [hdiv]; omega) hdelay
    obtain ⟨q, rfl, hle⟩ := spin_not_early (by rw [hmod]; omega) hspin
    rw [steps_clockAt]
    omega
  · rw [delayMicroseconds_short (by omega)] at h
    obtain ⟨q, rfl, hle⟩ := spin_not_early (by omega) h
    rwa [steps_clockAt]

theorem delayMicroseconds_one_not_early :
    delayMicroseconds (fun _ => 130) 1 1 0 (clockAt 5) = some (2, clockAt 265) ∧
      5 + (1 : UInt32).toNat * 120 ≤ (clockAt 265).steps := by
  have hreturns : delayMicroseconds (fun _ => 130) 1 1 0 (clockAt 5) = some (2, clockAt 265) := by
    rw [delayMicroseconds_short (by decide), spin, tick_clockAt]
    exact (pollLoop_poll (by decide) (fun _ => 130) 135 135 0 1 le_rfl).trans (if_pos (by decide))
  exact ⟨hreturns, delayMicroseconds_not_early 1 5 (fun _ => 130) 1 2 (clockAt 265) hreturns⟩

/-- Counter steps from the first read of the counter to poll `k`. -/
def elapsedAt (gaps : ℕ → ℕ) : ℕ → ℕ
  | 0 => 0
  | k + 1 => elapsedAt gaps k + gaps (k + 1)

structure FirstLate (gaps : ℕ → ℕ) (n k : ℕ) : Prop where
  late : n < elapsedAt gaps k
  first : ∀ j < k, elapsedAt gaps j ≤ n

/-- The call returns at the first poll that comes after the time to wait, or before it. -/
def NoOvershoot (gaps : ℕ → ℕ) (us : UInt32) (t : ℕ) : Prop :=
  ∀ k, FirstLate gaps (us.toNat * 120) k → (delayMicroseconds gaps k us 0 (clockAt t)).isSome

section Overshoot

variable {us : UInt32} (hus : us.toNat ≤ 999)

include hus

theorem pollLoop_isSome_iff (gaps : ℕ → ℕ) (s polls k : ℕ) :
    (pollLoop gaps (counterRead (clockAt s)) (waitTicks us (counterRead (clockAt s))) polls (k + 1)
        (clockAt (s + elapsedAt gaps k))).isSome ↔
      ∃ j, k < j ∧ j ≤ k + polls ∧ Ends us s (elapsedAt gaps j) := by
  induction polls generalizing k with
  | zero =>
    simp only [pollLoop, Option.isSome_none, Bool.false_eq_true, false_iff]
    rintro ⟨j, hlt, hle, -⟩
    omega
  | succ polls ih =>
    have htime : s + elapsedAt gaps k + gaps (k + 1) = s + elapsedAt gaps (k + 1) := Nat.add_assoc _ _ _
    rw [pollLoop_poll hus gaps s _ polls (k + 1) (Nat.le_add_right _ _), htime, Nat.add_sub_cancel_left]
    by_cases hends : Ends us s (elapsedAt gaps (k + 1))
    · rw [if_pos hends]
      exact ⟨fun _ => ⟨k + 1, by omega, by omega, hends⟩, fun _ => rfl⟩
    · rw [if_neg hends, ih (k + 1)]
      constructor
      · rintro ⟨j, hlt, hle, hj⟩
        exact ⟨j, by omega, by omega, hj⟩
      · rintro ⟨j, hlt, hle, hj⟩
        obtain rfl | hne := eq_or_ne j (k + 1)
        · exact absurd hj hends
        · exact ⟨j, by omega, by omega, hj⟩

theorem delayMicroseconds_isSome_iff (gaps : ℕ → ℕ) (t k : ℕ) :
    (delayMicroseconds gaps k us 0 (clockAt t)).isSome ↔
      ∃ j, 0 < j ∧ j ≤ k ∧ Ends us (t + gaps 0) (elapsedAt gaps j) := by
  have hpolls := pollLoop_isSome_iff hus gaps (t + gaps 0) k 0
  simp only [Nat.zero_add, elapsedAt, Nat.add_zero] at hpolls
  rw [delayMicroseconds_short hus, spin, tick_clockAt]
  exact hpolls

theorem ends_before_late {s e : ℕ} (he : e ≤ us.toNat * 120) :
    Ends us s e ↔ 119999 - s % 120000 < us.toNat * 120 ∧ e = us.toNat * 120 := by
  have hmod : e % 120000 = e := Nat.mod_eq_of_lt (by omega)
  rw [Ends, hmod]
  split <;> omega

theorem ends_late_iff {s e : ℕ} (hlate : us.toNat * 120 < e) (hnext : e < us.toNat * 120 + 120000) :
    Ends us s e ↔ e < 120000 := by
  rw [Ends]
  by_cases he : e < 120000
  · rw [Nat.mod_eq_of_lt he]
    split <;> omega
  · have hmod : e % 120000 = e - 120000 := by omega
    rw [hmod]
    split <;> omega

end Overshoot

theorem noOvershoot_iff (us : UInt32) (hus : us.toNat ≤ 999) (t : ℕ) (gaps : ℕ → ℕ)
    (hgaps : ∀ j, gaps (j + 1) < 120000) :
    NoOvershoot gaps us t ↔ ∀ k, FirstLate gaps (us.toNat * 120) k → elapsedAt gaps k < 120000 ∨
      (119999 - (t + gaps 0) % 120000 < us.toNat * 120 ∧ ∃ j < k, elapsedAt gaps j = us.toNat * 120) := by
  refine forall_congr' fun k => imp_congr_right fun hlate => ?_
  obtain ⟨k, rfl⟩ : ∃ k', k = k' + 1 := by
    cases k with
    | zero => exact absurd hlate.late (Nat.not_lt_zero _)
    | succ k => exact ⟨k, rfl⟩
  have hnext : elapsedAt gaps (k + 1) < us.toNat * 120 + 120000 := by
    have hprev := hlate.first k (Nat.lt_succ_self k)
    have hgap := hgaps k
    rw [elapsedAt]
    omega
  rw [delayMicroseconds_isSome_iff hus]
  constructor
  · rintro ⟨j, hpos, hle, hends⟩
    obtain rfl | hlt := Nat.eq_or_lt_of_le hle
    · exact .inl ((ends_late_iff hus hlate.late hnext).mp hends)
    · obtain ⟨hcross, heq⟩ := (ends_before_late hus (hlate.first j hlt)).mp hends
      exact .inr ⟨hcross, j, hlt, heq⟩
  · rintro (hsoon | ⟨hcross, j, hlt, heq⟩)
    · exact ⟨k + 1, Nat.succ_pos k, le_rfl, (ends_late_iff hus hlate.late hnext).mpr hsoon⟩
    · refine ⟨j, ?_, hlt.le, (ends_before_late hus heq.le).mpr ⟨hcross, heq⟩⟩
      cases j with
      | zero =>
        rw [elapsedAt] at heq
        omega
      | succ j => exact Nat.succ_pos j

theorem noOvershoot_of_frequent_polls : NoOvershoot (fun _ => 10) 999 0 := by
  apply (noOvershoot_iff 999 (by decide) 0 (fun _ => 10) (fun _ => by decide)).mpr
  intro k hlate
  cases k with
  | zero => exact absurd hlate.late (Nat.not_lt_zero _)
  | succ k =>
    have hprev := hlate.first k (Nat.lt_succ_self k)
    have h999 : (999 : UInt32).toNat = 999 := rfl
    rw [elapsedAt]
    omega

def sparseGaps : ℕ → ℕ
  | 0 => 0
  | 1 => 119850
  | _ + 2 => 150

theorem sparse_polls_overshoot : (∀ j, sparseGaps (j + 1) < 120000) ∧ ¬ NoOvershoot sparseGaps 999 0 := by
  refine ⟨fun j => ?_, fun h => ?_⟩
  · cases j with
    | zero => decide
    | succ j => exact (by decide : 150 < 120000)
  · have hlate : FirstLate sparseGaps ((999 : UInt32).toNat * 120) 2 := ⟨by decide, by decide⟩
    obtain ⟨j, hpos, hle, hends⟩ := (delayMicroseconds_isSome_iff (by decide) sparseGaps 0 2).mp (h 2 hlate)
    have hnone : ∀ j < 3, 0 < j → ¬ Ends 999 0 (elapsedAt sparseGaps j) := by decide
    exact hnone j (by omega) hpos hends

end LogoCore.Wiring
