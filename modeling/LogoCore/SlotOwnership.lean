import LogoCore.SlotEffects

namespace LogoCore.Ethernet

structure Owned (c : Slots) (n : Net) : Prop where
  holder : ∀ p b i, n.pcbs p = some b → b.callbackArg = .slot i →
    (c i).cpcb = some p ∧ (c i).port = b.remotePort
  port_iff : ∀ i, (c i).port ≠ 0 ↔ (c i).cpcb ≠ none
  queue : ∀ i, (c i).cpcb = none → (c i).p = []
  live : ∀ i p, (c i).cpcb = some p → ∃ b, n.pcbs p = some b ∧ b.callbackArg = .slot i
  opened : ∀ p b i, n.pcbs p = some b → b.callbackArg = .slot i →
    b.rxClosed = false ∧ b.poll = none
  registered : ∀ p b, n.pcbs p = some b → b.recv = some .doRecv → ∃ i, b.callbackArg = .slot i

namespace Owned

variable {c c' : Slots} {n n' : Net}

theorem port_eq_zero (h : Owned c n) {i : Slot} (hc : (c i).cpcb = none) : (c i).port = 0 := by
  by_contra hp
  exact (h.port_iff i).mp hp hc

theorem cpcb_eq_none (h : Owned c n) {i : Slot} (hp : (c i).port = 0) : (c i).cpcb = none := by
  by_contra hc
  exact (h.port_iff i).mpr hc hp

theorem unique (h : Owned c n) {i j : Slot} {p : PcbPtr} (hi : (c i).cpcb = some p)
    (hj : (c j).cpcb = some p) : i = j := by
  obtain ⟨b, hb, ha⟩ := h.live i p hi
  obtain ⟨b', hb', ha'⟩ := h.live j p hj
  obtain rfl : b = b' := Option.some.inj (hb.symm.trans hb')
  exact CallbackArg.slot.inj (ha.symm.trans ha')

theorem steady (h : Owned c n) (hs : Steady c c') (hn : Net.Quiet n n') : Owned c' n' where
  holder p b i hb ha := by
    obtain ⟨a, hpa, hab, -⟩ := hn.some hb
    simp only [Pcb.binding, Binding.mk.injEq] at hab
    rw [hs.cpcb, hs.port, ← hab.1]
    exact h.holder p a i hpa (hab.2.1.trans ha)
  port_iff i := by rw [hs.cpcb, hs.port]; exact h.port_iff i
  queue i hc := by
    rw [hs.cpcb] at hc
    exact hs.queue i hc (h.queue i hc)
  live i p hc := by
    rw [hs.cpcb] at hc
    obtain ⟨a, ha, harg⟩ := h.live i p hc
    have hq := hn p
    rw [ha] at hq
    cases hb : n'.pcbs p with
    | none => simp [hb] at hq
    | some b =>
      simp only [hb, Option.map_some, Option.some.injEq, Prod.mk.injEq, Pcb.binding,
        Binding.mk.injEq] at hq
      exact ⟨b, rfl, hq.1.2.1.trans harg⟩
  opened p b i hb ha := by
    obtain ⟨a, hpa, hab, hrx, hpoll⟩ := hn.some hb
    simp only [Pcb.binding, Binding.mk.injEq] at hab
    rw [← hrx, ← hpoll]
    exact h.opened p a i hpa (hab.2.1.trans ha)
  registered p b hb hr := by
    obtain ⟨a, hpa, hab, -⟩ := hn.some hb
    simp only [Pcb.binding, Binding.mk.injEq] at hab
    obtain ⟨i, hi⟩ := h.registered p a hpa (hab.2.2.1.trans hr)
    exact ⟨i, hab.2.1.symm.trans hi⟩

theorem released (h : Owned c n) {i : Slot} {p : PcbPtr} (hr : Released i p c c' n n') :
    Owned c' n' := by
  have hne {q : PcbPtr} {b : Pcb} {j : Slot} (hb : n'.pcbs q = some b) (ha : b.callbackArg = .slot j) :
      q ≠ p := by
    rintro rfl
    simp [(hr.net.2 b hb).1] at ha
  have hslot {q : PcbPtr} {j : Slot} (hq : q ≠ p) (hj : (c j).cpcb = some q) : j ≠ i := by
    rintro rfl
    exact hq (Option.some.inj (hj.symm.trans hr.was))
  constructor
  · intro q b j hb ha
    have hq := hne hb ha
    rw [hr.net.1 q hq] at hb
    obtain ⟨hc, hp⟩ := h.holder q b j hb ha
    rw [hr.others j (hslot hq hc)]
    exact ⟨hc, hp⟩
  · intro j
    by_cases hj : j = i
    · subst j; simp [hr.cpcb, hr.port]
    · rw [hr.others j hj]; exact h.port_iff j
  · intro j hc
    by_cases hj : j = i
    · subst j; exact hr.queue
    · rw [hr.others j hj] at hc ⊢; exact h.queue j hc
  · intro j q hc
    have hj : j ≠ i := by rintro rfl; simp [hr.cpcb] at hc
    rw [hr.others j hj] at hc
    have hq : q ≠ p := by rintro rfl; exact hj (h.unique hc hr.was)
    rw [hr.net.1 q hq]
    exact h.live j q hc
  · intro q b j hb ha
    rw [hr.net.1 q (hne hb ha)] at hb
    exact h.opened q b j hb ha
  · intro q b hb hf
    by_cases hq : q = p
    · subst q; simp [(hr.net.2 b hb).2.1] at hf
    · rw [hr.net.1 q hq] at hb
      exact h.registered q b hb hf

theorem loose (h : Owned c n) {p : PcbPtr} (hp : ∀ b i, n.pcbs p = some b → b.callbackArg ≠ .slot i)
    (ho : ∀ q, q ≠ p → n'.pcbs q = n.pcbs q)
    (hp' : ∀ b, n'.pcbs p = some b → (∀ i, b.callbackArg ≠ .slot i) ∧ b.recv ≠ some .doRecv) :
    Owned c n' where
  holder q b i hb ha := by
    have hq : q ≠ p := by rintro rfl; exact (hp' b hb).1 i ha
    exact h.holder q b i (ho q hq ▸ hb) ha
  port_iff := h.port_iff
  queue := h.queue
  live i q hc := by
    obtain ⟨b, hb, ha⟩ := h.live i q hc
    have hq : q ≠ p := by rintro rfl; exact hp b i hb ha
    exact ⟨b, (ho q hq).trans hb, ha⟩
  opened q b i hb ha := by
    have hq : q ≠ p := by rintro rfl; exact (hp' b hb).1 i ha
    exact h.opened q b i (ho q hq ▸ hb) ha
  registered q b hb hr := by
    have hq : q ≠ p := by rintro rfl; exact (hp' b hb).2 hr
    exact h.registered q b (ho q hq ▸ hb) hr

theorem bound (h : Owned c n) {i : Slot} {p : PcbPtr} {b : Pcb} {s : Client} (hi : (c i).port = 0)
    (hp : n.pcbs p = none) (hn : n'.pcbs = Function.update n.pcbs p (some b))
    (ha : b.callbackArg = .slot i) (hrx : b.rxClosed = false ∧ b.poll = none) (hs : s.cpcb = some p)
    (hport : s.port = b.remotePort) (hzero : s.port ≠ 0) : Owned (Function.update c i s) n' := by
  have hfree := h.cpcb_eq_none hi
  have hold {q : PcbPtr} {a : Pcb} (hq : q ≠ p) (hq' : n'.pcbs q = some a) : n.pcbs q = some a := by
    simpa [hn, hq] using hq'
  have hnew {a : Pcb} (hq : n'.pcbs p = some a) : b = a := by simpa [hn] using hq
  constructor
  · intro q a j hq haj
    by_cases hqp : q = p
    · subst q
      obtain rfl := hnew hq
      obtain rfl : i = j := CallbackArg.slot.inj (ha.symm.trans haj)
      simp [hs, hport]
    · obtain ⟨hc, hpj⟩ := h.holder q a j (hold hqp hq) haj
      have hj : j ≠ i := by rintro rfl; simp [hfree] at hc
      simpa [hj] using ⟨hc, hpj⟩
  · intro j
    by_cases hj : j = i
    · subst j; simp [hs, hzero]
    · simpa [hj] using h.port_iff j
  · intro j hc
    by_cases hj : j = i
    · subst j; simp [hs] at hc
    · simp only [Function.update_of_ne hj] at hc ⊢; exact h.queue j hc
  · intro j q hc
    by_cases hj : j = i
    · subst j
      simp only [Function.update_self, hs, Option.some.injEq] at hc
      subst q
      exact ⟨b, by simp [hn], ha⟩
    · simp only [Function.update_of_ne hj] at hc
      obtain ⟨a, hq, haj⟩ := h.live j q hc
      have hqp : q ≠ p := by rintro rfl; simp [hp] at hq
      exact ⟨a, by simpa [hn, hqp] using hq, haj⟩
  · intro q a j hq haj
    by_cases hqp : q = p
    · subst q; rwa [← hnew hq]
    · exact h.opened q a j (hold hqp hq) haj
  · intro q a hq hr
    by_cases hqp : q = p
    · subst q; exact ⟨i, hnew hq ▸ ha⟩
    · exact h.registered q a (hold hqp hq) hr

end Owned

end LogoCore.Ethernet
