import LogoCore.GpioInterrupts

namespace LogoCore.Pins

inductive PinEvent (F : Type)
  | attach (pin : Fin 96) (userFunc : Option F) (mode : ℤ)
  | detach (pin : Fin 96)

structure Registry (F : Type) where
  cbFuncs : CbFuncs F
  attached : Fin 96 → Option F

def OnLine (pin : Fin 96) (p : Port) (i : ℕ) : Prop :=
  digitalPinToPort pin = some p ∧ bitIndex (digitalPinToBitMask pin) = i

instance (pin : Fin 96) (p : Port) (i : ℕ) : Decidable (OnLine pin p i) := inferInstanceAs (Decidable (_ ∧ _))

def pinAt (p : Port) (i : ℕ) : Option (Fin 96) := (List.finRange 96).find? fun pin => OnLine pin p i

theorem idxOf_line : ∀ pin : Fin 96, (digitalPinToPort pin).isSome →
    (digitalPinToPortTable.zip digitalPinToBitMaskTable).idxOf (digitalPinToPort pin, digitalPinToBitMask pin) = pin ∧
      bv (bitIndex (digitalPinToBitMask pin)) = digitalPinToBitMask pin := by
  decide +kernel

theorem OnLine.unique {pin pin' : Fin 96} {p : Port} {i : ℕ} (h : OnLine pin p i) (h' : OnLine pin' p i) :
    pin = pin' := by
  obtain ⟨hport, hbit⟩ := h
  obtain ⟨hport', hbit'⟩ := h'
  obtain ⟨hidx, hmask⟩ := idxOf_line pin (by rw [hport]; rfl)
  obtain ⟨hidx', hmask'⟩ := idxOf_line pin' (by rw [hport']; rfl)
  apply Fin.ext
  rw [← hidx, ← hidx', ← hmask, ← hmask', hport, hport', hbit, hbit']

theorem pinAt_onLine {pin : Fin 96} {p : Port} {i : ℕ} (h : pinAt p i = some pin) : OnLine pin p i := by
  rw [pinAt] at h
  have hfound := List.find?_some h
  exact of_decide_eq_true hfound

theorem pinAt_eq_some_iff {pin : Fin 96} {p : Port} {i : ℕ} : pinAt p i = some pin ↔ OnLine pin p i := by
  constructor
  · exact pinAt_onLine
  · intro h
    have hsome : (pinAt p i).isSome := List.find?_isSome.mpr ⟨pin, List.mem_finRange pin, decide_eq_true h⟩
    obtain ⟨pin', hpin'⟩ := Option.isSome_iff_exists.mp hsome
    rw [hpin', h.unique (pinAt_onLine hpin')]

section Registry

variable {F : Type}

def lineCallbacks (m : Fin 96 → Option F) (p : Port) (i : ℕ) : Option F := (pinAt p i).bind m

def Registry.init : Registry F := ⟨fun _ _ => none, fun _ => none⟩

def Registry.step (s : Registry F) : PinEvent F → Registry F
  | .attach pin f mode => ⟨attachInterrupt s.cbFuncs pin f mode, Function.update s.attached pin f⟩
  | .detach pin => ⟨detachInterrupt s.cbFuncs pin, Function.update s.attached pin none⟩

def ValidMode : PinEvent F → Prop
  | .attach _ _ mode => (lm4fMode mode).isSome
  | .detach _ => True

def registryMachine (F : Type) : Machine (Registry F) (PinEvent F) := ⟨fun _ e => ValidMode e, Registry.step⟩

/-- Every interrupt of every port calls what is attached to the set bits of its status, in increasing order. -/
def Registry.Dispatches (s : Registry F) : Prop :=
  ∀ p isr, gpioxIntHandler isr (s.cbFuncs p) = callbacksOf isr (lineCallbacks s.attached p)

/-- A pin is detached only while no port behind its own in the switch has a callback at the same bit. -/
def LastCallback (s : Registry F) : PinEvent F → Prop
  | .attach _ _ _ => True
  | .detach pin => ∀ p, digitalPinToPort pin = some p →
      ∀ q ∈ (casesFrom p).tail, s.cbFuncs q (bitIndex (digitalPinToBitMask pin)) = none

def Registry.Agrees (s : Registry F) : Prop := ∀ p, ∀ i < 8, s.cbFuncs p i = lineCallbacks s.attached p i

theorem Registry.dispatches_iff (s : Registry F) : s.Dispatches ↔ s.Agrees := by
  constructor
  · intro h p i hi
    have hone := h p (UInt32.ofNat (2 ^ i))
    rw [gpioxIntHandler_eq, callbacksOf_bv _ hi, callbacksOf_bv _ hi] at hone
    cases hc : s.cbFuncs p i <;> cases ha : lineCallbacks s.attached p i <;> simp_all
  · intro h p isr
    rw [gpioxIntHandler_eq]
    exact callbacksOf_congr (h p) isr

theorem Registry.init_agrees : (Registry.init : Registry F).Agrees := by
  intro p i _
  simp only [Registry.init, lineCallbacks]
  cases pinAt p i <;> rfl

theorem lineCallbacks_update (m : Fin 96 → Option F) (pin : Fin 96) (f : Option F) (p : Port) (i : ℕ) :
    lineCallbacks (Function.update m pin f) p i = if OnLine pin p i then f else lineCallbacks m p i := by
  rw [lineCallbacks, lineCallbacks]
  by_cases h : OnLine pin p i
  · rw [if_pos h, pinAt_eq_some_iff.mpr h, Option.bind_some, Function.update_self]
  · rw [if_neg h]
    cases hpin : pinAt p i with
    | none => rfl
    | some pin' =>
      have hne : pin' ≠ pin := fun heq => h (heq ▸ pinAt_eq_some_iff.mp hpin)
      rw [Option.bind_some, Option.bind_some, Function.update_of_ne hne]

theorem update_off_line (m : Fin 96 → Option F) {pin : Fin 96} (h : digitalPinToPort pin = none) (f : Option F) :
    lineCallbacks (Function.update m pin f) = lineCallbacks m := by
  funext p i
  rw [lineCallbacks_update, if_neg]
  rintro ⟨hport, -⟩
  rw [h] at hport
  cases hport

theorem update_on_line (m : Fin 96 → Option F) {pin : Fin 96} {p : Port} (h : digitalPinToPort pin = some p)
    (f : Option F) :
    lineCallbacks (Function.update m pin f) = store (lineCallbacks m) p (bitIndex (digitalPinToBitMask pin)) f := by
  funext q j
  rw [lineCallbacks_update, store]
  apply if_congr ?_ rfl rfl
  rw [OnLine, h, Option.some_inj]
  exact and_congr eq_comm eq_comm

theorem casesFrom_eq (p : Port) : casesFrom p = p :: (casesFrom p).tail ∧ p ∉ (casesFrom p).tail := by
  cases p <;> decide

theorem Registry.Agrees.attach {s : Registry F} (h : s.Agrees) (pin : Fin 96) (f : Option F) {mode : ℤ}
    (hmode : (lm4fMode mode).isSome) : (s.step (.attach pin f mode)).Agrees := by
  obtain ⟨g, hg⟩ := Option.isSome_iff_exists.mp hmode
  intro p i hi
  rw [Registry.step, attachInterrupt, hg]
  cases hport : digitalPinToPort pin with
  | none =>
    rw [update_off_line _ hport]
    exact h p i hi
  | some q =>
    simp only [update_on_line _ hport, store]
    rw [h p i hi]

theorem detachInterrupt_apply (t : CbFuncs F) {pin : Fin 96} {p : Port} (h : digitalPinToPort pin = some p)
    (q : Port) (i : ℕ) :
    detachInterrupt t pin q i =
      if q ∈ casesFrom p ∧ i = bitIndex (digitalPinToBitMask pin) then none else t q i := by
  rw [detachInterrupt, h]
  exact foldl_store_none t _ _ q i

theorem Registry.Agrees.detach_iff {s : Registry F} (h : s.Agrees) (pin : Fin 96) :
    (s.step (.detach pin)).Agrees ↔ LastCallback s (.detach pin) := by
  cases hport : digitalPinToPort pin with
  | none =>
    refine iff_of_true (fun p i hi => ?_) (fun p hp => by rw [hport] at hp; cases hp)
    simp only [Registry.step, detachInterrupt, hport, update_off_line _ hport]
    exact h p i hi
  | some p =>
    obtain ⟨hcases, hfresh⟩ := casesFrom_eq p
    constructor
    · intro hstep p' hp' q hq
      obtain rfl : p = p' := Option.some.inj (hport.symm.trans hp')
      have hlt := bitIndex_lt hport
      have hother : ¬ (q = p ∧ bitIndex (digitalPinToBitMask pin) = bitIndex (digitalPinToBitMask pin)) := by
        rintro ⟨rfl, -⟩
        exact hfresh hq
      have hagree := hstep q _ hlt
      simp only [Registry.step, detachInterrupt_apply _ hport, update_on_line _ hport] at hagree
      rw [if_pos ⟨List.mem_of_mem_tail hq, trivial⟩, store_other _ hother, ← h q _ hlt] at hagree
      exact hagree.symm
    · intro hlast q i hi
      simp only [Registry.step, detachInterrupt_apply _ hport, update_on_line _ hport]
      by_cases hself : q = p ∧ i = bitIndex (digitalPinToBitMask pin)
      · obtain ⟨rfl, rfl⟩ := hself
        rw [store_self, if_pos ⟨by rw [hcases]; exact List.mem_cons_self, rfl⟩]
      · rw [store_other _ hself, ← h q i hi]
        split
        · rename_i hbehind
          obtain ⟨hq, rfl⟩ := hbehind
          rw [hcases] at hq
          rcases List.mem_cons.mp hq with rfl | htail
          · exact absurd ⟨rfl, rfl⟩ hself
          · exact (hlast p hport q htail).symm
        · rfl

/-- The registry is a map exactly when no pin is detached while a port behind its own has a callback at its bit. -/
theorem gpio_dispatch_iff (es : List (PinEvent F)) (hl : (registryMachine F).Legal Registry.init es) :
    (∀ fs gs, es = fs ++ gs → ((registryMachine F).run Registry.init fs).Dispatches) ↔
      (Machine.mk LastCallback (registryMachine F).step).Legal Registry.init es := by
  apply Machine.always_iff (I := Registry.Agrees) (fun s h => s.dispatches_iff.mpr h) ?_ ?_ Registry.init_agrees hl
  · intro s e h _ hdispatches
    cases e with
    | attach pin f mode => trivial
    | detach pin => exact (h.detach_iff pin).mp ((Registry.dispatches_iff _).mp hdispatches)
  · intro s e h he hlast
    cases e with
    | attach pin f mode => exact h.attach pin f he
    | detach pin => exact (h.detach_iff pin).mpr hlast

theorem gpio_dispatch_last_port :
    let es : List (PinEvent ℕ) := [.attach 85 (some 1) 3, .attach 47 (some 2) 2, .detach 47, .attach 47 (some 3) 4]
    (registryMachine ℕ).Legal Registry.init es ∧
      ∀ fs gs, es = fs ++ gs → ((registryMachine ℕ).run Registry.init fs).Dispatches := by
  intro es
  have hl : (registryMachine ℕ).Legal Registry.init es := ⟨rfl, rfl, trivial, rfl, trivial⟩
  refine ⟨hl, (gpio_dispatch_iff es hl).mpr ⟨trivial, trivial, ?_, trivial, trivial⟩⟩
  intro p hp q hq
  obtain rfl : Port.pq = p := Option.some.inj hp
  have hrest : ∀ q ∈ (casesFrom .pq).tail, q = .pr ∨ q = .ps ∨ q = .pt := by decide
  rcases hrest q hq with rfl | rfl | rfl <;> rfl

/-- Detaching PA_0 takes away the callback of PJ_0. -/
theorem detach_clears_other_port :
    let es : List (PinEvent ℕ) := [.attach 88 (some 1) 3, .attach 85 (some 2) 3, .detach 88]
    (registryMachine ℕ).Legal Registry.init es ∧
      gpioxIntHandler 1 (((registryMachine ℕ).run Registry.init es).cbFuncs .pj) = [] ∧
      ((registryMachine ℕ).run Registry.init es).attached 85 = some 2 := by
  exact ⟨⟨rfl, rfl, trivial, trivial⟩, by decide, rfl⟩

end Registry

end LogoCore.Pins
