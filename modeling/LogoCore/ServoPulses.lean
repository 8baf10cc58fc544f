import LogoCore.EventMachine
import LogoCore.Servo

namespace LogoCore.Servo

open Servos

structure Activation where
  before : Servos
  raised : Option (Fin 8 × UInt8)
  stray : ServoEntry

namespace Activation

variable (a : Activation)

def run : HandlerRun := a.before.servoIntHandler a.stray

def due : List PinWrite :=
  if h : a.before.currentServo.val < 8 then
    let e := a.before.servos ⟨a.before.currentServo.val, h⟩
    if e.enabled then [⟨e.pinNumber.toUInt8, true⟩] else []
  else []

structure Right : Prop where
  inside : ∀ i ∈ a.run.reads, 0 ≤ i ∧ i < 8
  starts : a.run.writes.filter (·.high) = a.due
  ends : ∀ k p, a.raised = some (k, p) → (a.before.servos k).enabled → ⟨p, false⟩ ∈ a.run.writes

def Aligned : Prop :=
  ∃ k : Fin 8, a.before.currentServo.val = k.val + 1 ∧
    (∀ h : a.before.currentServo.val < 8,
      (a.before.servos ⟨a.before.currentServo.val, h⟩).enabled = (a.before.servos k).enabled) ∧
    ∀ p, a.raised = some (k, p) → (a.before.servos k).enabled → (a.before.servos k).pinNumber.toUInt8 = p

def raises : Option (Fin 8 × UInt8) :=
  if h : a.before.currentServo.val < 8 then
    (a.run.writes.find? (·.high)).map fun w => (⟨a.before.currentServo.val, h⟩, w.pin)
  else none

def Consistent : Prop := ∀ k p, a.raised = some (k, p) → a.before.currentServo.val = k.val + 1

end Activation

theorem handler_at_zero {a : Activation} (h : a.before.currentServo.val = 0) : -1 ∈ a.run.reads := by
  simp [Activation.run, servoIntHandler, h]

theorem entry_before (s : Servos) (stray : ServoEntry) {k : Fin 8} (h : s.currentServo.val = k.val + 1) :
    s.entry stray ((s.currentServo.val : ℤ) - 1) = s.servos k := by
  rw [h, Nat.cast_add, Nat.cast_one, add_sub_cancel_right, entry_fin]

theorem handler_after {a : Activation} {k : Fin 8} (h : a.before.currentServo.val = k.val + 1) :
    (∀ i ∈ a.run.reads, 0 ≤ i ∧ i < 8) ∧
    a.run.writes = (if (a.before.servos k).enabled then [⟨(a.before.servos k).pinNumber.toUInt8, false⟩] else []) ++
      if hc : a.before.currentServo.val < 8 then
        if (a.before.servos k).enabled then
          [⟨(a.before.servos ⟨a.before.currentServo.val, hc⟩).pinNumber.toUInt8, true⟩] else []
      else [] := by
  have hprevious := entry_before a.before a.stray h
  have hpos : (a.before.currentServo.val : ℤ) > 0 := by omega
  simp only [Activation.run, servoIntHandler, hprevious, hpos, true_and]
  constructor
  · intro i hi
    simp only [List.mem_append, List.mem_ite_nil_right, List.mem_cons, List.not_mem_nil, or_false] at hi
    omega
  · congr 1
    by_cases hc : a.before.currentServo.val < 8
    · have hcurrent := entry_fin a.before a.stray ⟨a.before.currentServo.val, hc⟩
      rw [dif_pos hc]
      simp only at hcurrent
      rw [hcurrent]
      have hcast : (a.before.currentServo.val : ℤ) < 8 := by omega
      simp only [hcast, true_and]
    · rw [dif_neg hc, if_neg (by omega)]

namespace Activation

variable {a : Activation}

theorem starts_iff {k : Fin 8} (h : a.before.currentServo.val = k.val + 1) :
    a.run.writes.filter (·.high) = a.due ↔ ∀ hc : a.before.currentServo.val < 8,
      (a.before.servos ⟨a.before.currentServo.val, hc⟩).enabled = (a.before.servos k).enabled := by
  rw [(handler_after h).2, due]
  by_cases hc : a.before.currentServo.val < 8
  · simp only [dif_pos hc, forall_prop_of_true hc]
    cases (a.before.servos k).enabled <;>
      cases (a.before.servos ⟨a.before.currentServo.val, hc⟩).enabled <;> simp
  · simp only [dif_neg hc]
    refine iff_of_true ?_ (fun hc' => absurd hc' hc)
    cases (a.before.servos k).enabled <;> rfl

theorem ends_iff {k : Fin 8} (h : a.before.currentServo.val = k.val + 1) (hen : (a.before.servos k).enabled = true)
    (p : UInt8) : ⟨p, false⟩ ∈ a.run.writes ↔ (a.before.servos k).pinNumber.toUInt8 = p := by
  rw [(handler_after h).2, if_pos hen]
  by_cases hc : a.before.currentServo.val < 8
  · simp [hc, hen, eq_comm]
  · simp [hc, eq_comm]

theorem right_iff (hraised : a.Consistent) : a.Right ↔ a.Aligned := by
  constructor
  · intro h
    have hne : a.before.currentServo.val ≠ 0 := by
      intro hzero
      have := h.inside (-1) (handler_at_zero hzero)
      omega
    obtain ⟨k, hk⟩ : ∃ k : Fin 8, a.before.currentServo.val = k.val + 1 :=
      ⟨⟨a.before.currentServo.val - 1, by omega⟩, by simp only; omega⟩
    refine ⟨k, hk, (starts_iff hk).mp h.starts, ?_⟩
    intro p hp hen
    exact (ends_iff hk hen p).mp (h.ends k p hp hen)
  · rintro ⟨k, hk, hflag, hpin⟩
    refine ⟨(handler_after hk).1, (starts_iff hk).mpr hflag, ?_⟩
    intro k' p hp hen
    obtain rfl : k' = k := by
      have := hraised k' p hp
      apply Fin.ext
      omega
    exact (ends_iff hk hen p).mpr (hpin p hp hen)

theorem raises_consistent (k : Fin 8) (p : UInt8) (h : a.raises = some (k, p)) :
    a.before.currentServo.val = k.val := by
  unfold raises at h
  split at h
  · obtain ⟨w, -, hw⟩ := Option.map_eq_some_iff.mp h
    rw [← (Prod.mk.inj hw).1]
  · cases h

end Activation

structure ServoRun where
  servos : Servos
  raised : Option (Fin 8 × UInt8)
  activations : List Activation

namespace ServoRun

def activation (r : ServoRun) (stray : ServoEntry) : Activation := ⟨r.servos, r.raised, stray⟩

def step (r : ServoRun) : ServoEvent → ServoRun
  | .interrupt stray =>
    ⟨r.servos.step (.interrupt stray), (r.activation stray).raises, r.activations ++ [r.activation stray]⟩
  | e => { r with servos := r.servos.step e }

/-- Every run of the handler was right, and the turns went round from `c` on: each servo's turn comes once in nine. -/
def Pulses (c : ℕ) (r : ServoRun) : Prop :=
  (∀ a ∈ r.activations, a.Right) ∧
    r.activations.map (fun a => a.before.currentServo.val) =
      (List.range r.activations.length).map fun i => (c + i) % 9

end ServoRun

def servoMachine : Machine ServoRun ServoEvent := ⟨fun _ _ => True, ServoRun.step⟩

def AlignedTurn (r : ServoRun) : ServoEvent → Prop
  | .interrupt stray => (r.activation stray).Aligned
  | _ => True

structure ServoRun.Kept (c : ℕ) (r : ServoRun) : Prop where
  pulses : r.Pulses c
  cursor : r.servos.currentServo.val = (c + r.activations.length) % 9
  raised : ∀ stray, (r.activation stray).Consistent

theorem Servos.step_currentServo (s : Servos) {e : ServoEvent} (h : ∀ stray, e ≠ .interrupt stray) :
    (s.step e).currentServo = s.currentServo := by
  cases e with
  | interrupt stray => exact absurd rfl (h stray)
  | attach k pin min max => rfl
  | write k value => rfl
  | writeMicroseconds k value => rfl
  | detach k => rfl

theorem ServoRun.Kept.call {c : ℕ} {r : ServoRun} (h : r.Kept c) (e : ServoEvent)
    (he : ∀ stray, e ≠ .interrupt stray) :
    ServoRun.Kept c { r with servos := r.servos.step e } := by
  have hcursor := r.servos.step_currentServo he
  refine ⟨h.pulses, ?_, ?_⟩
  · rw [hcursor]
    exact h.cursor
  · intro stray k p hp
    have := h.raised stray k p hp
    simp only [activation] at this ⊢
    rw [hcursor]
    exact this

theorem ServoRun.Kept.interrupt {c : ℕ} {r : ServoRun} (h : r.Kept c) (stray : ServoEntry)
    (hright : (r.activation stray).Right) : (r.step (.interrupt stray)).Kept c := by
  obtain ⟨⟨hrights, hturns⟩, hcursor, -⟩ := h
  have hadvance : (r.step (.interrupt stray)).servos.currentServo.val = (r.servos.currentServo.val + 1) % 9 :=
    advance_val _
  refine ⟨⟨?_, ?_⟩, ?_, ?_⟩
  · intro a ha
    obtain ha | ha := List.mem_append.mp ha
    · exact hrights a ha
    · rw [List.mem_singleton.mp ha]
      exact hright
  · simp only [step, List.map_append, List.length_append, List.length_singleton, List.range_succ, hturns,
      List.map_singleton]
    rw [← hcursor]
    rfl
  · rw [hadvance, hcursor]
    simp only [step, List.length_append, List.length_singleton]
    omega
  · intro stray' k p hp
    have := (r.activation stray).raises_consistent k p hp
    change (r.step (.interrupt stray)).servos.currentServo.val = k.val + 1
    rw [hadvance]
    simp only [activation] at this
    omega

theorem ServoRun.Kept.step {c : ℕ} {r : ServoRun} (h : r.Kept c) {e : ServoEvent} (he : AlignedTurn r e) :
    (r.step e).Kept c := by
  cases e with
  | interrupt stray => exact h.interrupt stray ((Activation.right_iff (h.raised stray)).mpr he)
  | attach k pin min max => exact h.call _ (fun _ => nofun)
  | write k value => exact h.call _ (fun _ => nofun)
  | writeMicroseconds k value => exact h.call _ (fun _ => nofun)
  | detach k => exact h.call _ (fun _ => nofun)

theorem ServoRun.Kept.alignedTurn {c : ℕ} {r : ServoRun} (h : r.Kept c) {e : ServoEvent}
    (hp : (r.step e).Pulses c) : AlignedTurn r e := by
  cases e with
  | interrupt stray =>
    apply (Activation.right_iff (h.raised stray)).mp
    apply hp.1
    exact List.mem_append_right _ (List.mem_singleton_self _)
  | attach k pin min max => trivial
  | write k value => trivial
  | writeMicroseconds k value => trivial
  | detach k => trivial

def ServoRun.start (s : Servos) : ServoRun := ⟨s, none, []⟩

theorem ServoRun.start_kept (s : Servos) : (ServoRun.start s).Kept s.currentServo.val := by
  refine ⟨⟨nofun, rfl⟩, ?_, nofun⟩
  exact (Nat.mod_eq_of_lt s.currentServo.isLt).symm

theorem servo_pulses_iff (s : Servos) (es : List ServoEvent) :
    (∀ fs gs, es = fs ++ gs → (servoMachine.run (.start s) fs).Pulses s.currentServo.val) ↔
      (Machine.mk AlignedTurn ServoRun.step).Legal (.start s) es := by
  apply Machine.always_iff (I := ServoRun.Kept s.currentServo.val) (fun _ h => h.pulses) ?_ ?_ (ServoRun.start_kept s)
  · exact Machine.legal_iff_splits.mpr fun _ _ _ _ => trivial
  · intro r e h _ hp
    exact h.alignedTurn hp
  · intro r e h _ he
    exact h.step he

/-- With all the servos attached, the last pulse of a cycle starts and ends. -/
theorem servo_pulses_at_seven :
    let s : Servos := ⟨fun k => ⟨k.val.toUInt32, 1500, true⟩, 8000, 7, fun _ => 544, fun _ => 2400⟩
    (servoMachine.run (.start s) [.interrupt ⟨0, 0, false⟩, .interrupt ⟨0, 0, false⟩]).Pulses 7 := by
  intro s
  apply (servo_pulses_iff s [.interrupt ⟨0, 0, false⟩, .interrupt ⟨0, 0, false⟩]).mpr ?_ _ [] rfl
  refine ⟨⟨6, rfl, fun _ => rfl, fun p hp => (nomatch hp)⟩, ⟨7, rfl, fun h => absurd h (by decide), ?_⟩, trivial⟩
  intro p hp _
  exact (Prod.mk.inj (Option.some.inj hp)).2

/-- Only servo 0 is attached, to pin 5: it is not started, and the next interrupt drives pin 0 HIGH. -/
theorem servo_pulses_shifted :
    let r := servoMachine.run (.start (initServo (fun _ => 0) fun _ => 0))
      [.attach 0 5 544 2400, .interrupt ⟨0, 0, false⟩, .interrupt ⟨0, 0, false⟩]
    r.activations.map (·.due) = [[⟨5, true⟩], []] ∧
    r.activations.map (·.run.writes) = [[], [⟨5, false⟩, ⟨0, true⟩]] ∧
    r.activations.map (·.run.reads) = [[0, -1], [1, 0, 0, 0, 1]] ∧ ¬ r.Pulses 0 := by
  refine ⟨by decide, by decide, by decide, ?_⟩
  rintro ⟨hright, -⟩
  have hread := (hright _ (List.mem_cons_self)).inside (-1) (by decide)
  omega

end LogoCore.Servo
