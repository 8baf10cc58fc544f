import LogoCore.ToneTimers

namespace LogoCore.Pwm

open Pins

structure Sounds (s : Buzzer) (q : Request) : Prop where
  capable : digitalPinToTimer q.pin ≠ 0
  pin : s.tone.currentPin = q.pin
  assigned : s.assigned (timerToPinConfig (digitalPinToTimer q.pin)) = true
  plays : Plays s.timers q.pin q.frequency
  endless : q.remaining = none → s.gDuration = 0 ∧ ¬ s.Interrupts
  lasting : ∀ n, q.remaining = some n → 0 < n ∧ n ≤ 2 ^ 31 ∧ s.gDuration = Int32.ofNat n ∧ s.Ticks

namespace ToneSession

structure Tracks (x : ToneSession) : Prop where
  driven : ∀ p, x.buzzer.driven p = true ↔ ∃ q ∈ x.request, q.pin = p
  state : x.buzzer.tone.toneState = x.request.isSome
  timer : x.buzzer.tone.toneTimer = digitalPinToTimer x.buzzer.tone.currentPin
  unassigned : x.buzzer.assigned (.pd, bv 0) = false
  home : digitalPinToTimer x.buzzer.tone.currentPin ≠ 0 → Suits x.buzzer.tone.currentPin
  silent : x.request = none → x.buzzer.gDuration = 0
  sounds : ∀ q ∈ x.request, Sounds x.buzzer q

variable {x : ToneSession}

theorem tracks_start : start.Tracks := by
  refine ⟨fun p => ?_, rfl, rfl, rfl, fun h => absurd rfl h, fun _ => rfl, nofun⟩
  simp [start, Buzzer.start, Buzzer.driven]

theorem Tracks.accepts (h : x.Tracks) (pin : Fin 96) : x.buzzer.Accepts pin ↔ Request.Yields x.request pin := by
  have hstate := h.state
  cases hr : x.request with
  | none =>
    rw [hr] at hstate
    exact iff_of_true (Or.inl hstate) fun q hq => absurd hq (Option.some_ne_none q).symm
  | some q =>
    rw [hr] at hstate
    have hpin := (h.sounds q hr).pin
    rw [Buzzer.Accepts, hstate, hpin]
    constructor
    · rintro (hf | rfl)
      · exact absurd hf (by simp)
      · rintro r hr
        rw [Option.some.inj hr]
    · exact fun hy => Or.inr (hy q rfl).symm

theorem Tracks.output (h : x.Tracks) (pin : Fin 96) :
    x.buzzer.output pin = (x.request.filter fun q => q.pin = pin).map Request.wave := by
  by_cases hd : x.buzzer.driven pin = true
  · obtain ⟨q, hq, rfl⟩ := (h.driven pin).mp hd
    have hs := h.sounds q hq
    have hsuits := h.home (hs.pin ▸ hs.capable)
    rw [hs.pin] at hsuits
    obtain ⟨-, hport, hmask⟩ := hsuits
    have hassigned := hs.assigned
    rw [← Prod.mk.eta (p := timerToPinConfig _), ← hmask] at hassigned
    rw [Buzzer.output_of_plays hd hport hassigned hs.plays, Option.mem_def.mp hq]
    simp [Request.wave, Request.square, PwmCall.period]
  · have hnone : ∀ q ∈ x.request, ¬ q.pin = pin := fun q hq hp => hd ((h.driven pin).mpr ⟨q, hq, hp⟩)
    rw [Buzzer.output_of_not_driven (Bool.not_eq_true _ ▸ hd), Option.filter_eq_none_iff.mpr (by simpa using hnone)]
    rfl

theorem Tracks.governs (h : x.Tracks) : x.Governs := by
  refine ⟨h.output, h.accepts, fun q hq hr => ?_⟩
  obtain ⟨n, hn⟩ := Option.ne_none_iff_exists'.mp hr
  exact ((h.sounds q hq).lasting n hn).2.2.2

theorem Tracks.driven_update (h : x.Tracks) {pin : Fin 96} (hy : Request.Yields x.request pin) {u : Buzzer}
    (hu : u.drive = Function.update x.buzzer.drive pin (some (.timer (digitalPinToTimer pin)))) (p : Fin 96) :
    u.driven p = true ↔ pin = p := by
  by_cases hp : p = pin
  · subst hp
    simp [Buzzer.driven, hu]
  · have hkeep : u.driven p = x.buzzer.driven p :=
      Buzzer.driven_congr (by rw [hu, Function.update_of_ne hp])
    rw [hkeep, h.driven p]
    constructor
    · rintro ⟨q, hq, rfl⟩
      exact (hy q hq).symm
    · exact fun heq => absurd heq.symm hp

theorem Tracks.takeover (h : x.Tracks) {u : Buzzer} {q : Request} (hy : Request.Yields x.request q.pin)
    (hsuits : Suits q.pin) (hs : Sounds u q) (hstate : u.tone.toneState = true)
    (ht : u.tone.toneTimer = digitalPinToTimer u.tone.currentPin)
    (hd : u.drive = Function.update x.buzzer.drive q.pin (some (.timer (digitalPinToTimer q.pin))))
    (ha : u.assigned = Function.update x.buzzer.assigned (timerToPinConfig (digitalPinToTimer q.pin)) true) :
    Tracks ⟨u, some q⟩ := by
  refine ⟨fun p => ?_, hstate, ht, ?_, fun _ => ?_, nofun, fun r hr => ?_⟩
  · simpa using h.driven_update hy hd p
  · dsimp only
    rw [ha, Function.update_of_ne (pinConfig_ne hs.capable).symm]
    exact h.unassigned
  · dsimp only
    rw [hs.pin]
    exact hsuits
  · rw [← Option.some.inj hr]
    exact hs

theorem Tracks.ask_accepted (h : x.Tracks) {q : Request} (ha : x.buzzer.Accepts q.pin) :
    Request.ask x.request q = some q :=
  if_pos ((h.accepts q.pin).mp ha)

theorem Tracks.ask_refused (h : x.Tracks) {q : Request} (ha : ¬ x.buzzer.Accepts q.pin) :
    Request.ask x.request q = x.request :=
  if_neg (mt (h.accepts q.pin).mpr ha)

theorem step_toneFor {pin : Fin 96} {frequency duration : UInt32} (h : x.Tracks) (ha : x.buzzer.Accepts pin) :
    x.step (.toneFor pin frequency duration) =
      ⟨x.buzzer.toneFor pin frequency duration,
        some ⟨pin, frequency, if duration = 0 then none else some duration.toNat⟩⟩ := by
  rw [step, Request.step, h.ask_accepted ha]

theorem step_toneOn {pin : Fin 96} {frequency : UInt32} (h : x.Tracks) (ha : x.buzzer.Accepts pin) :
    x.step (.toneOn pin frequency) = ⟨x.buzzer.toneOn pin frequency, some ⟨pin, frequency, none⟩⟩ := by
  rw [step, Request.step, h.ask_accepted ha]

theorem Tracks.toneFor (h : x.Tracks) {pin : Fin 96} {frequency duration : UInt32}
    (hc : digitalPinToTimer pin ≠ 0) (hm : x.Meets (.toneFor pin frequency duration)) :
    (x.step (.toneFor pin frequency duration)).Tracks := by
  by_cases ha : x.buzzer.Accepts pin
  · obtain ⟨hsuits, ⟨haudible, hperiod, hscale⟩, hpos, hle⟩ := hm ha
    obtain ⟨port, hp⟩ := port_of_timer hc
    have hplays := plays_pwmWrite hp haudible hperiod hscale
    have hd : duration ≠ 0 := fun h0 => absurd (congrArg UInt32.toNat h0) hpos.ne'
    rw [step_toneFor h ha, if_neg hd, Buzzer.toneFor_accepted hp ha]
    refine h.takeover ((h.accepts pin).mp ha) hsuits ?_ rfl rfl rfl rfl
    refine ⟨hc, rfl, Function.update_self _ _ _, hplays.startTick hsuits.1, nofun, ?_⟩
    rintro n hn
    obtain rfl := Option.some.inj hn
    refine ⟨hpos, hle, toInt32_eq duration, Buzzer.ticks_started ?_ rfl⟩
    dsimp only
    rw [Function.update_self]
  · have hsame : x.step (.toneFor pin frequency duration) = x := by
      rw [step, Request.step, h.ask_refused ha]
      simp only [Buzzer.toneFor_refused ha]
    rw [hsame]
    exact h

theorem Tracks.gDuration_of_quiet (h : x.Tracks) (hquiet : ¬ x.buzzer.Interrupts) : x.buzzer.gDuration = 0 := by
  cases hr : x.request with
  | none => exact h.silent hr
  | some q =>
    have hs := h.sounds q hr
    cases hq : q.remaining with
    | none => exact (hs.endless hq).1
    | some n => exact absurd (hs.lasting n hq).2.2.2.1 hquiet

theorem Tracks.toneOn (h : x.Tracks) {pin : Fin 96} {frequency : UInt32} (hc : digitalPinToTimer pin ≠ 0)
    (hm : x.Meets (.toneOn pin frequency)) : (x.step (.toneOn pin frequency)).Tracks := by
  by_cases ha : x.buzzer.Accepts pin
  · obtain ⟨rfl, ⟨haudible, hperiod, hscale⟩, hquiet⟩ := hm ha
    have hsuits := h.home hc
    obtain ⟨port, hp⟩ := port_of_timer hc
    have hstill := mt (Buzzer.interrupts_toneOn frequency hp ha hsuits.1).mp hquiet
    rw [Buzzer.toneOn_accepted hp ha] at hstill
    rw [step_toneOn h ha, Buzzer.toneOn_accepted hp ha]
    refine h.takeover ((h.accepts _).mp ha) hsuits ?_ rfl rfl rfl rfl
    have hzero := h.gDuration_of_quiet hquiet
    exact ⟨hc, rfl, Function.update_self _ _ _, plays_pwmWrite hp haudible hperiod hscale,
      fun _ => ⟨hzero, hstill⟩, nofun⟩
  · have hsame : x.step (.toneOn pin frequency) = x := by
      rw [step, Request.step, h.ask_refused ha]
      simp only [Buzzer.toneOn_refused ha]
    rw [hsame]
    exact h

theorem Tracks.stopped (h : x.Tracks) {u : Buzzer} (hd : ∀ p, u.driven p = false) (hs : u.tone.toneState = false)
    (ht : u.tone.toneTimer = x.buzzer.tone.toneTimer) (hp : u.tone.currentPin = x.buzzer.tone.currentPin)
    (hg : u.gDuration = 0) (ha : u.assigned = x.buzzer.assigned) : Tracks ⟨u, none⟩ := by
  refine ⟨fun p => ?_, hs, ?_, ?_, ?_, fun _ => hg, nofun⟩
  · simp [hd p]
  · dsimp only
    rw [ht, hp]
    exact h.timer
  · dsimp only
    rw [ha]
    exact h.unassigned
  · dsimp only
    rw [hp]
    exact h.home

theorem Tracks.driven_noTone (h : x.Tracks) {pin : Fin 96} (hy : Request.Yields x.request pin)
    (ht : digitalPinToTimer pin = x.buzzer.tone.toneTimer) (p : Fin 96) : (x.buzzer.noTone pin).driven p = false := by
  by_contra hd
  have hd := Bool.not_eq_false _ ▸ hd
  obtain ⟨q, hq, rfl⟩ := (h.driven p).mp (Buzzer.driven_of_noTone hd)
  obtain ⟨port, hp⟩ := port_of_timer (h.sounds q hq).capable
  obtain rfl := hy q hq
  rw [Buzzer.driven_noTone ht hp] at hd
  exact absurd hd (by simp)

theorem Tracks.noTone (h : x.Tracks) {pin : Fin 96} (hm : x.Meets (.noTone pin)) :
    (x.step (.noTone pin)).Tracks := by
  by_cases ht : digitalPinToTimer pin = x.buzzer.tone.toneTimer
  · have hy := (h.accepts pin).mp (hm.resolve_right (not_not.mpr ht))
    have hnone : x.request.filter (fun q => q.pin ≠ pin) = none := by
      rw [Option.filter_eq_none_iff]
      intro q hq
      simp [hy q hq]
    have hstep : x.step (.noTone pin) = ⟨x.buzzer.noTone pin, none⟩ := by
      simp only [step, Request.step, hnone]
    rw [hstep]
    apply h.stopped (h.driven_noTone hy ht) <;> rw [Buzzer.noTone, if_pos ht]
  · have hne : ∀ q ∈ x.request, q.pin ≠ pin := by
      rintro q hq rfl
      apply ht
      rw [h.timer, (h.sounds q hq).pin]
    have hkeep : x.request.filter (fun q => q.pin ≠ pin) = x.request := by
      cases hr : x.request with
      | none => rfl
      | some q => simp [hne q hr]
    have hsame : x.step (.noTone pin) = x := by
      simp only [step, Buzzer.noTone, if_neg ht, Request.step, hkeep]
    rw [hsame]
    exact h

theorem Tracks.expired (h : x.Tracks) (hg : x.buzzer.gDuration - 1 ≤ 0) : Tracks ⟨x.buzzer.toneIntHandler, none⟩ := by
  have hy := (h.accepts x.buzzer.tone.currentPin).mp (Or.inr rfl)
  rw [Buzzer.toneIntHandler_expired hg h.timer]
  apply h.stopped
  · exact h.driven_noTone hy h.timer.symm
  all_goals simp only [Buzzer.noTone, h.timer, ↓reduceIte]

theorem Tracks.counted (h : x.Tracks) {q : Request} {n : ℕ} (hr : x.request = some q) (hq : q.remaining = some n)
    (hn : 1 < n) :
    Tracks ⟨{ x.buzzer with gDuration := x.buzzer.gDuration - 1 }, some { q with remaining := some (n - 1) }⟩ := by
  have hs := h.sounds q hr
  obtain ⟨-, hle, hg, hticks⟩ := hs.lasting n hq
  have hdriven := h.driven
  have hstate := h.state
  rw [hr] at hdriven hstate
  refine ⟨fun p => ?_, hstate, h.timer, h.unassigned, h.home, nofun, ?_⟩
  · have hp : x.buzzer.driven p = true ↔ q.pin = p := by simpa using hdriven p
    simp only [Option.mem_def, Option.some.injEq, exists_eq_left']
    exact hp
  · rintro r hr
    rw [← Option.some.inj hr]
    refine ⟨hs.capable, hs.pin, hs.assigned, hs.plays, nofun, ?_⟩
    rintro m hm
    obtain rfl := Option.some.inj hm
    refine ⟨by omega, by omega, ?_, hticks⟩
    dsimp only
    rw [hg, ofNat_sub_one (by omega)]

theorem Tracks.tick (h : x.Tracks) (he : x.buzzer.Interrupts) : (x.step .tick).Tracks := by
  cases hr : x.request with
  | none =>
    have hg : x.buzzer.gDuration - 1 ≤ 0 := by
      rw [h.silent hr]
      decide
    have hstep : x.step .tick = ⟨x.buzzer.toneIntHandler, none⟩ := by
      simp only [step, Request.step, hr, Option.bind_none]
    rw [hstep]
    exact h.expired hg
  | some q =>
    have hs := h.sounds q hr
    cases hq : q.remaining with
    | none => exact absurd he (hs.endless hq).2
    | some n =>
      obtain ⟨hpos, hle, hg, hticks⟩ := hs.lasting n hq
      have hleft : x.buzzer.gDuration - 1 ≤ 0 ↔ n ≤ 1 := by
        rw [hg, ofNat_sub_one hpos, ofNat_nonpos_iff (by omega)]
        omega
      by_cases hn : n ≤ 1
      · have hstep : x.step .tick = ⟨x.buzzer.toneIntHandler, none⟩ := by
          simp only [step, Request.step, hr, Option.bind_some, Request.tick, hq, if_pos hn]
        rw [hstep]
        exact h.expired (hleft.mpr hn)
      · have hrun := Buzzer.toneIntHandler_running (s := x.buzzer) (mt hleft.mp hn)
        have hstep : x.step .tick =
            ⟨{ x.buzzer with gDuration := x.buzzer.gDuration - 1 }, some { q with remaining := some (n - 1) }⟩ := by
          simp only [step, hrun, Request.step, hr, Option.bind_some, Request.tick, hq, if_neg hn]
        rw [hstep]
        exact h.counted hr hq (by omega)

theorem tracks_step {e : ToneEvent} (he : x.Enabled e) (hm : x.Meets e) (h : x.Tracks) : (x.step e).Tracks := by
  cases e with
  | toneFor pin frequency duration => exact h.toneFor he hm
  | toneOn pin frequency => exact h.toneOn he hm
  | noTone pin => exact h.noTone hm
  | tick => exact h.tick he

theorem Tracks.endures (h : x.Tracks) : x.Endures := by
  intro n hl
  have htracks : (toneMachine.run x (List.replicate n .tick)).Tracks := by
    induction n generalizing x with
    | zero => exact h
    | succ n ih => exact ih (h.tick hl.1) hl.2
  exact htracks.governs

theorem Endures.governs (h : x.Endures) : x.Governs := h 0 trivial

theorem Endures.tick (h : x.Endures) (he : x.buzzer.Interrupts) : (x.step .tick).Endures :=
  fun n hl => h (n + 1) ⟨he, hl⟩

theorem Governs.heard (h : x.Governs) {q : Request} (hq : q ∈ x.request) : x.buzzer.output q.pin ≠ none := by
  rw [h.output, Option.mem_def.mp hq]
  simp

theorem not_endures_of_expired {q : Request} (hq : q ∈ (x.step .tick).request) (hi : x.buzzer.Interrupts)
    (hpin : x.buzzer.tone.currentPin = q.pin)
    (ht : x.buzzer.tone.toneTimer = digitalPinToTimer x.buzzer.tone.currentPin) (hc : digitalPinToTimer q.pin ≠ 0)
    (hg : x.buzzer.gDuration - 1 ≤ 0) : ¬ x.Endures := by
  intro h
  obtain ⟨port, hp⟩ := port_of_timer hc
  have hout := Buzzer.output_expired hg ht (hpin ▸ hp)
  rw [hpin] at hout
  exact (h.tick hi).governs.heard hq hout

theorem not_endures_of_ticks {q : Request} (hq : x.request = some q) (hend : q.remaining = none)
    (hi : x.buzzer.Interrupts) (hpin : x.buzzer.tone.currentPin = q.pin)
    (ht : x.buzzer.tone.toneTimer = digitalPinToTimer x.buzzer.tone.currentPin) (hc : digitalPinToTimer q.pin ≠ 0) :
    ¬ x.Endures := by
  -- The count is down to `n` or less with the next tick, also where it starts from the least `long`.
  obtain ⟨n, hn⟩ : ∃ n : ℕ, (x.buzzer.gDuration - 1).toInt ≤ n := ⟨_, Int.self_le_toNat _⟩
  have hreq {y : ToneSession} (hy : y.request = some q) : (y.step .tick).request = some q := by
    simp only [step, Request.step, hy, Option.bind_some, Request.tick, hend]
  induction n generalizing x with
  | zero => exact not_endures_of_expired (hreq hq) hi hpin ht hc (Int32.le_iff_toInt_le.mpr hn)
  | succ n ih =>
    by_cases hg : x.buzzer.gDuration - 1 ≤ 0
    · exact not_endures_of_expired (hreq hq) hi hpin ht hc hg
    · have hrun : (x.step .tick).buzzer = { x.buzzer with gDuration := x.buzzer.gDuration - 1 } :=
        Buzzer.toneIntHandler_running hg
      intro h
      refine ih (hreq hq) ?_ ?_ ?_ ?_ (h.tick hi)
      · rw [hrun]
        exact hi
      · rw [hrun]
        exact hpin
      · rw [hrun]
        exact ht
      · rw [hrun]
        have hless := toInt_sub_one hg
        dsimp only
        omega

theorem Tracks.suits_of_endures (h : x.Tracks) {pin : Fin 96} {frequency duration : UInt32}
    (hc : digitalPinToTimer pin ≠ 0) (ha : x.buzzer.Accepts pin)
    (hE : (x.step (.toneFor pin frequency duration)).Endures) : Suits pin := by
  obtain ⟨port, hp⟩ := port_of_timer hc
  rw [step_toneFor h ha, Buzzer.toneFor_accepted hp ha] at hE
  have hheard := hE.governs.heard rfl
  refine ⟨fun h4 => ?_, ?_⟩
  · apply hheard
    apply Buzzer.output_of_cfg
    simp only [h4, Timers.startTick, Function.update_self]
    decide
  · obtain hown | ⟨hpd, hmask⟩ := own_or_pd0 hc
    · exact hown
    · refine absurd (Buzzer.output_of_unassigned hpd ?_) hheard
      dsimp only
      rw [hmask, Function.update_of_ne (pinConfig_ne hc).symm]
      exact h.unassigned

theorem Governs.fits {y : ToneSession} (hy : y.Governs) {q : Request} (hq : q ∈ y.request)
    (hc : digitalPinToTimer q.pin ≠ 0)
    (hhalf : y.buzzer.timers.half (halfOf q.pin) =
      (pwmWrite x.buzzer.timers q.square).2.half (halfOf q.pin)) : x.Fits q.pin q.frequency := by
  obtain ⟨port, hp⟩ := port_of_timer hc
  have hout := hy.output q.pin
  rw [Option.mem_def.mp hq] at hout
  obtain ⟨haudible, hperiod, hmatch⟩ := Buzzer.half_of_output (w := q.wave) (by rw [hout]; simp)
  rw [hhalf] at hperiod hmatch
  obtain ⟨hlt, hscale⟩ := (programmed_pwmWrite hp).mp ⟨hperiod, hmatch⟩
  exact ⟨haudible, hlt, hscale⟩

theorem Tracks.lasts_of_endures (h : x.Tracks) {pin : Fin 96} {frequency duration : UInt32}
    (hc : digitalPinToTimer pin ≠ 0) (ha : x.buzzer.Accepts pin)
    (hE : (x.step (.toneFor pin frequency duration)).Endures) : 0 < duration.toNat ∧ duration.toNat ≤ 2 ^ 31 := by
  by_contra hn
  obtain ⟨port, hp⟩ := port_of_timer hc
  have hpos (hzero : duration ≠ 0) : 0 < duration.toNat :=
    Nat.pos_of_ne_zero fun h0 => hzero (UInt32.toNat_inj.mp h0)
  have hg : duration.toInt32 - 1 ≤ 0 := by
    have hlt := duration.toNat_lt
    by_cases hzero : duration = 0
    · rw [hzero]
      decide
    · have := hpos hzero
      rw [toInt32_eq, ofNat_sub_one (by omega)]
      exact ofNat_nonpos_of_large (by omega) (by omega)
  have hreq : ∃ q, q ∈ (x.step (.toneFor pin frequency duration)).request.bind Request.tick ∧ q.pin = pin := by
    rw [step_toneFor h ha]
    by_cases hzero : duration = 0
    · exact ⟨_, by rw [if_pos hzero]; rfl, rfl⟩
    · have hbig : ¬ duration.toNat ≤ 1 := by
        have := hpos hzero
        omega
      refine ⟨⟨pin, frequency, some (duration.toNat - 1)⟩, ?_, rfl⟩
      rw [if_neg hzero]
      simp only [Option.bind_some, Request.tick, if_neg hbig, Option.mem_def]
  obtain ⟨q, hq, rfl⟩ := hreq
  have hbuzzer : (x.step (.toneFor q.pin frequency duration)).buzzer = _ := Buzzer.toneFor_accepted hp ha
  refine not_endures_of_expired hq ?_ ?_ ?_ hc ?_ hE
  · rw [hbuzzer]
    refine (Buzzer.ticks_started ?_ rfl).1
    dsimp only
    rw [Function.update_self]
  · rw [hbuzzer]
  · rw [hbuzzer]
  · rw [hbuzzer]
    exact hg

theorem Tracks.toneFor_fits (h : x.Tracks) {pin : Fin 96} {frequency duration : UInt32}
    (hc : digitalPinToTimer pin ≠ 0) (ha : x.buzzer.Accepts pin) (hsuits : Suits pin)
    (hE : (x.step (.toneFor pin frequency duration)).Endures) : x.Fits pin frequency := by
  obtain ⟨port, hp⟩ := port_of_timer hc
  rw [step_toneFor h ha] at hE
  refine hE.governs.fits rfl hc ?_
  rw [Buzzer.toneFor_accepted hp ha]
  exact startTick_half hsuits.1

theorem Tracks.toneOn_of_endures (h : x.Tracks) {pin : Fin 96} {frequency : UInt32} (hc : digitalPinToTimer pin ≠ 0)
    (hE : (x.step (.toneOn pin frequency)).Endures) : x.Meets (.toneOn pin frequency) := by
  intro ha
  obtain ⟨port, hp⟩ := port_of_timer hc
  have hstep : x.step (.toneOn pin frequency) = _ := step_toneOn h ha
  have hpin : pin = x.buzzer.tone.currentPin := by
    have haccepts := (hE.governs.accepts pin).mpr (by rw [hstep]; rintro q hq; rw [← Option.some.inj hq])
    rw [hstep, Buzzer.toneOn_accepted hp ha] at haccepts
    exact haccepts.resolve_left (by simp)
  have hfits : x.Fits pin frequency := by
    refine hE.governs.fits (q := ⟨pin, frequency, none⟩) (by rw [hstep]; rfl) hc ?_
    rw [hstep, Buzzer.toneOn_accepted hp ha]
    rfl
  refine ⟨hpin, hfits, fun hi => ?_⟩
  subst hpin
  have hi' := (Buzzer.interrupts_toneOn frequency hp ha (h.home hc).1).mpr hi
  rw [hstep] at hE
  refine not_endures_of_ticks rfl rfl hi' ?_ ?_ hc hE
  · rw [Buzzer.toneOn_accepted hp ha]
  · rw [Buzzer.toneOn_accepted hp ha]

theorem Tracks.noTone_of_endures (h : x.Tracks) {pin : Fin 96} (hE : (x.step (.noTone pin)).Endures) :
    x.Meets (.noTone pin) := by
  by_contra hn
  obtain ⟨ha, ht⟩ := not_or.mp hn
  have ht := not_not.mp ht
  obtain ⟨hstate, hne⟩ := not_or.mp ha
  cases hr : x.request with
  | none => exact hstate (by rw [h.state, hr]; rfl)
  | some q =>
    have hpin := (h.sounds q hr).pin
    have hkeep : q ∈ (x.step (.noTone pin)).request := by
      have hqne : q.pin ≠ pin := fun heq => hne (heq.symm.trans hpin.symm)
      simp [step, Request.step, hr, hqne]
    apply hE.governs.heard hkeep
    apply Buzzer.output_of_disabled
    have hhalf : halfOf q.pin = halfOf pin := by
      rw [halfOf, halfOf, ← hpin, ← h.timer, ht]
    simp only [step, Buzzer.noTone, if_pos ht, Timers.disable, hhalf, Function.update_self]

theorem Tracks.meets_of_endures (h : x.Tracks) {e : ToneEvent} (he : x.Enabled e) (hE : (x.step e).Endures) :
    x.Meets e := by
  cases e with
  | toneFor pin frequency duration =>
    intro ha
    have hsuits := h.suits_of_endures he ha hE
    exact ⟨hsuits, h.toneFor_fits he ha hsuits hE, h.lasts_of_endures he ha hE⟩
  | toneOn pin frequency => exact h.toneOn_of_endures he hE
  | noTone pin => exact h.noTone_of_endures hE
  | tick => trivial

end ToneSession

/-- The last request governs throughout, and for as long as the ticks then go on, exactly when every call meets
the condition. -/
theorem last_request_governs_iff (es : List ToneEvent) (hl : toneMachine.Legal .start es) :
    (∀ fs gs, es = fs ++ gs → (toneMachine.run .start fs).Endures) ↔
      (Machine.mk ToneSession.Meets ToneSession.step).Legal .start es :=
  Machine.always_iff (M := toneMachine) (I := ToneSession.Tracks) (fun _ h => h.endures)
    (fun _ _ h he hE => h.meets_of_endures he hE) (fun _ _ h he hm => ToneSession.tracks_step he hm h)
    ToneSession.tracks_start hl

theorem last_request_governs_replaced :
    let es : List ToneEvent :=
      [.toneFor 9 440 2, .tick, .toneFor 9 880 1, .toneOn 10 660, .tick, .toneOn 9 660, .noTone 10, .noTone 9]
    (toneMachine.run .start (es.take 7)).buzzer.output 9 = some (181818, 90909) ∧
      ∀ fs gs, es = fs ++ gs → (toneMachine.run .start fs).Endures := by
  intro es
  exact ⟨by decide +kernel, (last_request_governs_iff es (by decide +kernel)).mpr (by decide +kernel)⟩

/-- A duration of 0 or of more than 2 ^ 31 is over with the first tick. A short period keeps the prescaler of a long
one before it, and one of more than 24 bits is cut. A tone without a duration is stopped by the ticks of
the one before, also after noTone(); a tone is refused on the pin it made sound and accepted on another. A pin on
the timer of the ticks is silent, and so is PD0, whose noTone() silences PA0. -/
theorem last_request_does_not_govern :
    List.Forall
      (fun c : List ToneEvent × Fin 96 × Option (ℕ × ℕ) × Request =>
        let x := toneMachine.run .start c.1
        toneMachine.Legal .start c.1 ∧ x.buzzer.output c.2.1 = c.2.2.1 ∧ x.request = some c.2.2.2 ∧ ¬ x.Governs)
      [([.toneFor 9 440 0, .tick], 9, none, ⟨9, 440, none⟩),
        ([.toneFor 9 440 2147483649, .tick], 9, none, ⟨9, 440, some 2147483648⟩),
        ([.toneFor 9 440 100, .toneFor 9 2000 100], 9, some (322144, 161072), ⟨9, 2000, some 100⟩),
        ([.toneFor 9 7 100], 9, some (365641, 8571428), ⟨9, 7, some 100⟩),
        ([.toneFor 9 440 2, .toneOn 9 880, .tick, .tick], 9, none, ⟨9, 880, none⟩),
        ([.toneFor 9 440 2, .noTone 9, .toneOn 9 880, .tick], 9, none, ⟨9, 880, none⟩),
        ([.toneOn 9 440, .toneOn 9 880], 9, some (272727, 136363), ⟨9, 880, none⟩),
        ([.toneFor 9 440 1, .tick, .toneOn 10 440, .toneOn 9 880], 9, some (136363, 68181), ⟨10, 440, none⟩),
        ([.toneFor 29 440 5], 29, none, ⟨29, 440, some 5⟩),
        ([.toneFor 14 440 5], 14, none, ⟨14, 440, some 5⟩),
        ([.toneFor 88 440 5, .noTone 14], 88, none, ⟨88, 440, some 5⟩)] := by
  rw [List.forall_iff_forall_mem]
  intro c hc x
  have hne : ¬ x.buzzer.output c.2.1 = (x.request.filter fun q => q.pin = c.2.1).map Request.wave := by
    revert c
    decide +kernel
  refine ⟨?_, ?_, ?_, fun h => hne (h.output c.2.1)⟩
  all_goals
    clear hne
    revert c
    decide +kernel

end LogoCore.Pwm
